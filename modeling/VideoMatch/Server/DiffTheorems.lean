/-
VideoMatch.Server.DiffTheorems — which frame differences `diff_bits` and
`min_diff_bits` get right.

`make_bit1_table` stops at `i < 255`, so the table says 0 for the byte
255. A difference is therefore short of the Hamming distance by 8 for
every byte in which the two hashes differ completely, and by nothing
else (`diffBits_add_fullBytes`). Everything below follows from that
equation:

* `diff_bits` is the Hamming distance exactly when no byte of the
  exclusive or is 255;
* a search for the frame of least difference is misled exactly when some
  frame with such a byte comes out nearer than every frame without one.
-/
import VideoMatch.Cxx.Bits
import VideoMatch.Server.CheckCandidate

namespace VideoMatch.Server

open VideoMatch.Cxx

/-! ## The table -/

/-- The inner loop of `make_bit1_table` counts the one bits of a byte: at
step `k` it has counted those below position `k`. -/
theorem countBits_eq (i : Nat) : countBits i = ones 8 i := by
  have hloop : ∀ k, (List.range k).foldl (fun (st : Nat × Nat) _ =>
      (if st.2 &&& 1 ≠ 0 then st.1 + 1 else st.1, st.2 >>> 1)) (0, i) = (ones k i, i >>> k) := by
    intro k
    induction k with
    | zero => rfl
    | succ k ih =>
        have hbit : (i >>> k) &&& 1 ≠ 0 ↔ i.testBit k = true := by
          rw [Nat.testBit, Nat.and_comm, bne_iff_ne]
        rw [List.range_succ, List.foldl_append, ih, List.foldl_cons, List.foldl_nil, ones_succ,
          Nat.shiftRight_add]
        simp only [hbit]
        cases i.testBit k <;> rfl
  rw [countBits, hloop]

/-- The entries of `bit1_table`: only the last one is wrong. -/
theorem bit1Table_getD (c : UInt8) :
    bit1Table.getD c.toNat 0 = if c = 255 then 0 else ones 8 c.toNat := by
  have hlt : c.toNat < 256 := c.toNat_lt
  have hlast : c = 255 ↔ ¬ c.toNat < 255 := by
    have h255 : (255 : UInt8).toNat = 255 := rfl
    rw [← UInt8.toNat_inj, h255]
    omega
  rw [bit1Table, foldl_set_replicate, List.getD_eq_getElem _ _ (by simpa using hlt),
    List.getElem_map, List.getElem_range, countBits_eq]
  simp only [hlast, ite_not]

theorem bit1Table_add (c : UInt8) :
    bit1Table.getD c.toNat 0 + 8 * (if c = 255 then 1 else 0) = ones 8 c.toNat := by
  have hfull : ones 8 255 = 8 := by decide
  rw [bit1Table_getD]
  split
  · next h => rw [h]; exact hfull.symm
  · rfl

/-! ## One difference -/

/-- The number of bytes of a word that are 255. -/
def fullBytes (x : UInt64) : Nat := (u64Bytes x).count 255

theorem bit1count_add_fullBytes (x : UInt64) :
    bit1count x + 8 * fullBytes x = ones 64 x.toNat := by
  have hbytes : ∀ l : Bytes, (l.map fun c => bit1Table.getD c.toNat 0).sum + 8 * l.count 255
      = (l.map fun c => ones 8 c.toNat).sum := by
    intro l
    induction l with
    | nil => rfl
    | cons c l ih =>
        have hc := bit1Table_add c
        simp only [List.map_cons, List.sum_cons, List.count_cons, beq_iff_eq]
        omega
  rw [bit1count, fullBytes, hbytes, u64Bytes, sum_ones_leBytes]

/-- `diff_bits` misses the 8 bits of every byte that differs completely. -/
theorem diffBits_add_fullBytes (x y : UInt64) :
    diffBits x y + 8 * fullBytes (x ^^^ y) = hamming x y := by
  rw [diffBits, bit1count_add_fullBytes, hamming_eq_ones]

theorem diffBits_eq_hamming_iff (x y : UInt64) :
    diffBits x y = hamming x y ↔ fullBytes (x ^^^ y) = 0 := by
  have h := diffBits_add_fullBytes x y
  omega

theorem diffBits_le_hamming (x y : UInt64) : diffBits x y ≤ hamming x y := by
  have h := diffBits_add_fullBytes x y
  omega

theorem hamming_le (x y : UInt64) : hamming x y ≤ 64 := by
  rw [hamming_eq_ones]
  exact ones_le 64 _

theorem diffBits_le (x y : UInt64) : diffBits x y ≤ 64 :=
  (diffBits_le_hamming x y).trans (hamming_le x y)

theorem diffBits_self (x : UInt64) : diffBits x x = 0 :=
  Nat.le_zero.mp ((diffBits_le_hamming x x).trans_eq (hamming_eq_zero.mpr rfl))

/-- A difference of 0 means that every byte of the exclusive or is 0 or
255. -/
theorem diffBits_eq_zero_iff (x y : UInt64) :
    diffBits x y = 0 ↔ ∀ c ∈ u64Bytes (x ^^^ y), c = 0 ∨ c = 255 := by
  have hbyte : ∀ c : UInt8, bit1Table.getD c.toNat 0 = 0 ↔ c = 0 ∨ c = 255 := by
    intro c
    rw [bit1Table_getD]
    split
    · next h => simp [h]
    · next h =>
        rw [ones_eq_zero_iff, Nat.mod_eq_of_lt c.toNat_lt, ← UInt8.toNat_inj]
        simp [h]
  rw [diffBits, bit1count, List.sum_eq_zero_iff, List.forall_mem_map]
  simp only [hbyte]

/-! ## The least difference -/

/-- What `min_diff_bits` finds in the whole base: the least difference as
`diff_bits` sees it, and where it is first. -/
theorem minDiffBits_firstMin (key : UInt64) (base : List UInt64) (pos : Nat) :
    ∃ r, minDiffBits key base 0 base.length pos = some r ∧
      FirstMin (base.map (diffBits key)) 64 r := by
  have hscan := foldlM_firstMin (base.map (diffBits key)) 64 pos
  have hbody : (fun (st : Nat × Nat) i => (base.map (diffBits key))[i]?.bind fun d =>
        some (if d < st.1 then (d, i) else st))
      = (fun (st : Nat × Nat) i => do
          let b ← base[i]?
          let d := bit1count (key ^^^ b)
          if d < st.1 then some (d, i) else some st) := by
    funext st i
    rw [List.getElem?_map]
    cases base[i]? with
    | none => rfl
    | some b => exact apply_ite some _ _ _
  rwa [hbody, List.length_map, List.range_eq_range'] at hscan

/-- No frame of `base` that differs from `key` in all bits of some byte
looks nearer than every frame without such a byte; among frames equally
near the earlier one counts. -/
def NoFullByteWins (key : UInt64) (base : List UInt64) : Prop :=
  ∀ (i : Nat) b, base[i]? = some b → fullBytes (key ^^^ b) ≠ 0 →
    ∃ (j : Nat) (c : UInt64), base[j]? = some c ∧ fullBytes (key ^^^ c) = 0 ∧
      (hamming key c < hamming key b - 8 * fullBytes (key ^^^ b) ∨
        hamming key c = hamming key b - 8 * fullBytes (key ^^^ b) ∧ j < i)

/-- Once the answer is right, it stands at a frame without a full byte,
and that frame wins against all others. -/
theorem noFullByteWins_of_firstMin {key : UInt64} {base : List UInt64} {r : Nat × Nat}
    (hfound : FirstMin (base.map (diffBits key)) 64 r)
    (hright : FirstMin (base.map (hamming key)) 64 r) : NoFullByteWins key base := by
  intro i b hb hfull
  have hdiff := diffBits_add_fullBytes key b
  have hle := hamming_le key b
  have hat : (base.map (diffBits key))[i]? = some (diffBits key b) := by simp [hb]
  have hr := hfound.le_vals i _ hat
  have hcap : r.1 < 64 := by omega
  have hf := hfound.attained hcap
  have hh := hright.attained hcap
  rw [List.getElem?_map, Option.map_eq_some_iff] at hf hh
  obtain ⟨c, hc, hcd⟩ := hf
  obtain ⟨c', hc', hch⟩ := hh
  obtain rfl : c = c' := Option.some.inj (hc.symm.trans hc')
  refine ⟨r.2, c, hc, (diffBits_eq_hamming_iff key c).mp (hcd.trans hch.symm), ?_⟩
  rcases Nat.lt_or_ge r.1 (diffBits key b) with hlt | hge
  · exact .inl (by omega)
  · have hnot : ¬ i < r.2 := by
      intro hi
      have hlt := hfound.first hcap i _ hi hat
      omega
    have hne : i ≠ r.2 := by
      intro heq
      rw [heq, hc] at hb
      obtain rfl := Option.some.inj hb
      omega
    exact .inr ⟨by omega, by omega⟩

/-- An answer at a frame without a full byte is the right one. -/
theorem firstMin_of_noFullByteWins {key : UInt64} {base : List UInt64} {r : Nat × Nat}
    (hfound : FirstMin (base.map (diffBits key)) 64 r) (hwins : NoFullByteWins key base) :
    FirstMin (base.map (hamming key)) 64 r := by
  apply hfound.mono
  · intro i w hw
    rw [List.getElem?_map, Option.map_eq_some_iff] at hw
    obtain ⟨b, hb, rfl⟩ := hw
    exact ⟨diffBits key b, by simp [hb], diffBits_le_hamming key b⟩
  · intro hcap
    have hat := hfound.attained hcap
    rw [List.getElem?_map, Option.map_eq_some_iff] at hat
    obtain ⟨b, hb, hbd⟩ := hat
    have hdiff := diffBits_add_fullBytes key b
    have hclean : fullBytes (key ^^^ b) = 0 := by
      by_contra hfull
      obtain ⟨j, c, hc, hcfull, hbeats⟩ := hwins r.2 b hb hfull
      have hcd : (base.map (diffBits key))[j]? = some (hamming key c) := by
        simp [hc, (diffBits_eq_hamming_iff key c).mpr hcfull]
      have hle := hfound.le_vals j _ hcd
      rcases hbeats with hlt | ⟨heq, hj⟩
      · omega
      · have hlt := hfound.first hcap j _ hj hcd
        omega
    have hval : hamming key b = r.1 := by omega
    simp [hb, hval]

/-! ## When the differences are right -/

/-- `diff_bits` is the Hamming distance, and `min_diff_bits` finds the
first frame at the least Hamming distance, exactly as long as no byte that
differs completely comes into play. -/
theorem differences_right_iff (x y z key : UInt64) (base : List UInt64) (pos : Nat) :
    (diffBits x y = hamming x y ↔ fullBytes (x ^^^ y) = 0) ∧
    ((diffBits x y = 0 → x = y) ↔ (x = y ∨ ∃ c ∈ u64Bytes (x ^^^ y), c ≠ 0 ∧ c ≠ 255)) ∧
    (fullBytes (x ^^^ y) = 0 → fullBytes (y ^^^ z) = 0 →
      diffBits x z ≤ diffBits x y + diffBits y z) ∧
    ((∃ r, minDiffBits key base 0 base.length pos = some r ∧
      FirstMin (base.map (hamming key)) 64 r) ↔ NoFullByteWins key base) := by
  constructor
  · exact diffBits_eq_hamming_iff x y
  constructor
  · rw [diffBits_eq_zero_iff]
    by_cases hxy : x = y
    · simp [hxy]
    · simp [hxy]
  constructor
  · intro hxy hyz
    rw [(diffBits_eq_hamming_iff x y).mpr hxy, (diffBits_eq_hamming_iff y z).mpr hyz]
    exact (diffBits_le_hamming x z).trans (hamming_triangle x y z)
  · obtain ⟨r, hr, hfound⟩ := minDiffBits_firstMin key base pos
    constructor
    · intro h
      obtain ⟨r', hr', hright⟩ := h
      obtain rfl : r = r' := Option.some.inj (hr.symm.trans hr')
      exact noFullByteWins_of_firstMin hfound hright
    · intro hwins
      exact ⟨r, hr, firstMin_of_noFullByteWins hfound hwins⟩

/-- Hashes that differ in their whole low byte look equal. -/
theorem differences_wrong_example :
    diffBits 0 255 = 0 ∧ (0 : UInt64) ≠ 255 ∧ hamming 0 255 = 8 ∧
    minDiffBits 0 [255, 1] 0 2 0 = some (0, 0) ∧ hamming 0 1 = 1 := by
  decide +kernel

end VideoMatch.Server
