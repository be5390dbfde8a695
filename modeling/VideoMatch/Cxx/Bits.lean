/-
VideoMatch.Cxx.Bits — counting the one bits of machine words, and the
first smallest entry of a list.

`ones k n` counts the one bits of `n` below position `k`. A count splits
at any position (`ones_add`), so the count of a word is the sum of the
counts of its bytes in memory (`sum_ones_leBytes`). The number of
positions in which two words differ is Mathlib's `hammingDist` of their
bits; `hamming_eq_ones` reads it off the exclusive or.

`FirstMin vals cap r` says that a search for the smallest entry of
`vals`, capped at `cap`, has the answer `r`: the value, and the first
index at which it stands.
-/
import VideoMatch.Cxx.Words

namespace VideoMatch.Cxx

/-! ## One bits -/

/-- The number of one bits of `n` below position `k`. -/
def ones (k n : Nat) : Nat := ∑ i ∈ Finset.range k, (n.testBit i).toNat

@[simp] theorem ones_zero_left (n : Nat) : ones 0 n = 0 := rfl

@[simp] theorem ones_zero_right (k : Nat) : ones k 0 = 0 := by
  simp [ones]

theorem ones_succ (k n : Nat) : ones (k + 1) n = ones k n + (n.testBit k).toNat :=
  Finset.sum_range_succ _ _

theorem ones_le (k n : Nat) : ones k n ≤ k := by
  have hle := Finset.sum_le_card_nsmul (Finset.range k) (fun i => (n.testBit i).toNat) 1
    (fun i _ => Bool.toNat_le (n.testBit i))
  simpa [ones] using hle

/-- A count splits at any position. -/
theorem ones_add (j k n : Nat) : ones (j + k) n = ones j n + ones k (n / 2 ^ j) := by
  rw [ones, ones, ones, Finset.sum_range_add]
  congr 1
  apply Finset.sum_congr rfl
  intro i _
  rw [Nat.testBit_div_two_pow, Nat.add_comm]

/-- Only the bits below the bound matter. -/
theorem ones_mod (k n : Nat) : ones k (n % 2 ^ k) = ones k n := by
  apply Finset.sum_congr rfl
  intro i hi
  have hlt : i < k := Finset.mem_range.mp hi
  rw [Nat.testBit_mod_two_pow]
  simp [hlt]

/-- No bit below the position is one. -/
theorem ones_eq_zero_iff (k n : Nat) : ones k n = 0 ↔ n % 2 ^ k = 0 := by
  constructor
  · intro h
    apply Nat.eq_of_testBit_eq
    intro i
    rw [Nat.testBit_mod_two_pow, Nat.zero_testBit, Bool.and_eq_false_iff]
    by_cases hi : i < k
    · have hbit := Finset.sum_eq_zero_iff.mp h i (Finset.mem_range.mpr hi)
      exact .inr (Bool.toNat_eq_zero.mp hbit)
    · exact .inl (decide_eq_false hi)
  · intro h
    rw [← ones_mod, h, ones_zero_right]

/-- The bits of a number are the bits of its bytes. -/
theorem sum_ones_leBytes (k n : Nat) :
    ((leBytes k n).map fun c => ones 8 c.toNat).sum = ones (8 * k) n := by
  induction k generalizing n with
  | zero => simp [leBytes]
  | succ k ih =>
      have hbyte : ones 8 (UInt8.ofNat n).toNat = ones 8 n := by
        have hmod : (UInt8.ofNat n).toNat = n % 2 ^ 8 := UInt8.toNat_ofNat'
        rw [hmod, ones_mod]
      have hmul : 8 * (k + 1) = 8 + 8 * k := by omega
      have hsplit := ones_add 8 (8 * k) n
      rw [leBytes, List.map_cons, List.sum_cons, ih, hbyte, hmul, hsplit]
      rfl

/-! ## The Hamming distance of two words -/

/-- The bits of a word, the lowest first. -/
def wordBits (x : UInt64) : Fin 64 → Bool := fun i => x.toNat.testBit i

theorem wordBits_injective : Function.Injective wordBits := by
  intro x y h
  apply UInt64.toNat_inj.mp
  apply Nat.eq_of_testBit_eq
  intro i
  by_cases hi : i < 64
  · exact congrFun h ⟨i, hi⟩
  · have hpow : 2 ^ 64 ≤ 2 ^ i := Nat.pow_le_pow_right (by decide) (by omega)
    rw [Nat.testBit_lt_two_pow (lt_of_lt_of_le x.toNat_lt hpow),
      Nat.testBit_lt_two_pow (lt_of_lt_of_le y.toNat_lt hpow)]

/-- The number of bit positions in which two words differ. -/
def hamming (x y : UInt64) : Nat := hammingDist (wordBits x) (wordBits y)

theorem hamming_eq_zero {x y : UInt64} : hamming x y = 0 ↔ x = y :=
  hammingDist_eq_zero.trans wordBits_injective.eq_iff

theorem hamming_triangle (x y z : UInt64) : hamming x z ≤ hamming x y + hamming y z :=
  hammingDist_triangle _ _ _

/-- Two words differ where their exclusive or has a one. -/
theorem hamming_eq_ones (x y : UInt64) : hamming x y = ones 64 (x ^^^ y).toNat := by
  have hbit : ∀ i : Fin 64, ((x ^^^ y).toNat.testBit i).toNat
      = if wordBits x i ≠ wordBits y i then 1 else 0 := by
    intro i
    rw [UInt64.toNat_xor, Nat.testBit_xor, wordBits, wordBits]
    cases x.toNat.testBit i <;> cases y.toNat.testBit i <;> rfl
  rw [ones, Finset.sum_range, hamming, hammingDist, Finset.card_filter]
  exact Finset.sum_congr rfl fun i _ => (hbit i).symm

/-! ## First smallest entries -/

/-- The answer `r` of a search for the smallest entry below `cap`. -/
structure FirstMin (vals : List Nat) (cap : Nat) (r : Nat × Nat) : Prop where
  le_cap : r.1 ≤ cap
  le_vals : ∀ i v : Nat, vals[i]? = some v → r.1 ≤ v
  attained : r.1 < cap → vals[r.2]? = some r.1
  first : r.1 < cap → ∀ i v : Nat, i < r.2 → vals[i]? = some v → r.1 < v

/-- A search that looks at one entry more. -/
theorem FirstMin.snoc {vals : List Nat} {cap v : Nat} {r : Nat × Nat} (h : FirstMin vals cap r) :
    FirstMin (vals ++ [v]) cap (if v < r.1 then (v, vals.length) else r) := by
  have hget : ∀ i w : Nat, (vals ++ [v])[i]? = some w →
      vals[i]? = some w ∨ (i = vals.length ∧ w = v) := by
    intro i w hw
    rcases Nat.lt_trichotomy i vals.length with hlt | heq | hgt
    · rw [List.getElem?_append_left hlt] at hw
      exact .inl hw
    · subst heq
      rw [List.getElem?_concat_length] at hw
      exact .inr ⟨rfl, (Option.some.inj hw).symm⟩
    · rw [List.getElem?_eq_none (by simp; omega)] at hw
      cases hw
  split
  · next hlt =>
      constructor
      · exact Nat.le_of_lt (lt_of_lt_of_le hlt h.le_cap)
      · intro i w hw
        rcases hget i w hw with hold | ⟨-, rfl⟩
        · exact Nat.le_of_lt (lt_of_lt_of_le hlt (h.le_vals i w hold))
        · exact le_rfl
      · intro _
        exact List.getElem?_concat_length
      · intro _ i w hi hw
        rcases hget i w hw with hold | ⟨heq, -⟩
        · exact lt_of_lt_of_le hlt (h.le_vals i w hold)
        · exact absurd heq (Nat.ne_of_lt hi)
  · next hge =>
      constructor
      · exact h.le_cap
      · intro i w hw
        rcases hget i w hw with hold | ⟨-, rfl⟩
        · exact h.le_vals i w hold
        · exact Nat.le_of_not_lt hge
      · intro hcap
        have hold := h.attained hcap
        rw [List.getElem?_append_left (List.getElem?_eq_some_iff.mp hold).1]
        exact hold
      · intro hcap i w hi hw
        have hlen : r.2 < vals.length := (List.getElem?_eq_some_iff.mp (h.attained hcap)).1
        rcases hget i w hw with hold | ⟨heq, -⟩
        · exact h.first hcap i w hi hold
        · omega

/-- An answer for one list is the answer for a list that is nowhere below
it and agrees with it at the index found. -/
theorem FirstMin.mono {vals vals' : List Nat} {cap : Nat} {r : Nat × Nat}
    (h : FirstMin vals cap r)
    (hle : ∀ i w : Nat, vals'[i]? = some w → ∃ v : Nat, vals[i]? = some v ∧ v ≤ w)
    (hat : r.1 < cap → vals'[r.2]? = some r.1) : FirstMin vals' cap r := by
  constructor
  · exact h.le_cap
  · intro i w hw
    obtain ⟨v, hv, hvw⟩ := hle i w hw
    exact (h.le_vals i v hv).trans hvw
  · exact hat
  · intro hcap i w hi hw
    obtain ⟨v, hv, hvw⟩ := hle i w hw
    exact lt_of_lt_of_le (h.first hcap i v hi hv) hvw

/-- The scan that keeps the smallest entry so far and its index. -/
theorem foldlM_firstMin (vals : List Nat) (cap pos : Nat) :
    ∃ r, (List.range vals.length).foldlM
        (fun (st : Nat × Nat) i =>
          vals[i]?.bind fun d => some (if d < st.1 then (d, i) else st)) (cap, pos) = some r ∧
      FirstMin vals cap r := by
  obtain ⟨r, hr, hmin⟩ := foldlM_all
    (P := fun done st => FirstMin (vals.take done.length) cap st)
    (f := fun (st : Nat × Nat) i =>
      vals[i]?.bind fun d => some (if d < st.1 then (d, i) else st))
    (List.range vals.length) (cap, pos)
    (by
      intro done i rest st hsplit hst
      -- the index is the number of entries seen
      have hat : (List.range vals.length)[done.length]? = some i := by
        rw [hsplit]; simp
      obtain ⟨hlt, hi⟩ := List.getElem?_eq_some_iff.mp hat
      rw [List.getElem_range] at hi
      rw [List.length_range] at hlt
      have hget : vals[i]? = some (vals.get ⟨i, hi ▸ hlt⟩) := List.getElem?_eq_getElem _
      have hlen : (vals.take done.length).length = i := by
        rw [List.length_take, Nat.min_eq_left (Nat.le_of_lt hlt), hi]
      have htake : vals.take (done ++ [i]).length
          = vals.take done.length ++ [vals.get ⟨i, hi ▸ hlt⟩] := by
        subst hi
        rw [List.length_append, List.length_singleton, List.take_succ_eq_append_getElem hlt]
        rfl
      have hsnoc := hst.snoc (v := vals.get ⟨i, hi ▸ hlt⟩)
      rw [hlen, ← htake] at hsnoc
      exact ⟨_, by rw [hget, Option.bind_some], hsnoc⟩)
    (by
      constructor
      · exact le_rfl
      · intro i v hv; simp at hv
      · intro h; exact absurd h (lt_irrefl _)
      · intro h; exact absurd h (lt_irrefl _))
  rw [List.length_range, List.take_length] at hmin
  exact ⟨r, hr, hmin⟩

end VideoMatch.Cxx
