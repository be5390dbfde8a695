/-
VideoMatch.Cxx.Format — printing into buffers and reading back.

`snprintf` cuts a text that does not fit its buffer. A number that is cut
so is a shorter number: what `atoi` reads from the first digits of `n` lies
between 1 and `n` (`atoi_take_decimal`), and from all of them it reads `n`
(`atoi_decimal`). `fgets` reads a line in pieces of the size of its buffer
(`fgetsAll_file`).
-/
import VideoMatch.Cxx.Strings

namespace VideoMatch.Cxx

/-! ## Buffers -/

/-- A string as the functions of C see it, up to the first NUL. -/
def cString (s : Bytes) : Bytes := s.takeWhile (· ≠ 0)

/-- The string that `snprintf(buf, n, …)` leaves in `buf`, for a text
without NUL. -/
def snprintf (n : Nat) (text : Bytes) : Bytes := text.take (n - 1)

/-- The strings that successive calls of `fgets(s, n, f)` read; `cur` has
been read by the call that is under way. -/
def fgetsAll (n : Nat) : Bytes → Bytes → List Bytes
  | cur, [] => if cur = [] then [] else [cur]
  | cur, b :: file =>
      if b = 10 ∨ n ≤ cur.length + 2 then (cur ++ [b]) :: fgetsAll n [] file
      else fgetsAll n (cur ++ [b]) file

theorem cString_eq_self {s : Bytes} (h : 0 ∉ s) : cString s = s := takeWhile_ne_zero h

theorem mem_of_mem_snprintf {n : Nat} {text : Bytes} {b : UInt8} (h : b ∈ snprintf n text) :
    b ∈ text := List.mem_of_mem_take h

/-! ## Lines and pieces -/

/-- A string read by `fgets`, up to its newline. -/
def lineOf (fn : Bytes) : Bytes := fn.takeWhile fun c => c ≠ 0 ∧ c ≠ 10

/-- The pieces of `n` bytes of a text; the last one may be shorter. -/
def chunks (n : Nat) (s : Bytes) : List Bytes :=
  (List.range ((s.length + n - 1) / n)).map fun i => (s.drop (n * i)).take n

theorem length_le_of_mem_chunks {n : Nat} {s p : Bytes} (h : p ∈ chunks n s) : p.length ≤ n := by
  obtain ⟨i, -, rfl⟩ := List.mem_map.mp h
  exact List.length_take_le _ _

theorem chunks_nil {n : Nat} (hn : 0 < n) : chunks n [] = [] := by
  have hzero : (0 + n - 1) / n = 0 := Nat.div_eq_of_lt (by omega)
  rw [chunks, List.length_nil, hzero]
  rfl

/-- A first piece, and the pieces of the rest. -/
theorem chunks_append {n : Nat} (hn : 0 < n) {s : Bytes} (hs : s.length = n) (t : Bytes) :
    chunks n (s ++ t) = s :: chunks n t := by
  have hcount : ((s ++ t).length + n - 1) / n = (t.length + n - 1) / n + 1 := by
    have hlen : (s ++ t).length + n - 1 = t.length + n - 1 + n := by
      rw [List.length_append]
      omega
    rw [hlen, Nat.add_div_right _ hn]
  rw [chunks, hcount, List.range_succ_eq_map, List.map_cons, List.map_map]
  congr 1
  · rw [Nat.mul_zero, List.drop_zero, List.take_left' hs]
  · apply List.map_congr_left
    intro i _
    have hdrop : n * (i + 1) = s.length + n * i := by rw [hs, Nat.mul_succ, Nat.add_comm]
    rw [Function.comp_apply, Nat.succ_eq_add_one, hdrop, ← List.drop_drop, List.drop_left]

/-- A text of at most `n` bytes is one piece. -/
theorem chunks_of_length_le {n : Nat} {s : Bytes} (hne : s ≠ []) (hs : s.length ≤ n) :
    chunks n s = [s] := by
  have hpos : 0 < s.length := List.length_pos_of_ne_nil hne
  have hcount : (s.length + n - 1) / n = 1 := by
    rw [Nat.div_eq_iff (by omega)]
    omega
  rw [chunks, hcount]
  simp [List.take_of_length_le hs]

theorem lineOf_eq_self {s : Bytes} (h0 : 0 ∉ s) (h10 : 10 ∉ s) : lineOf s = s := by
  rw [lineOf, List.takeWhile_eq_self_iff]
  intro b hb
  simpa using ⟨ne_of_mem_of_not_mem hb h0, ne_of_mem_of_not_mem hb h10⟩

theorem lineOf_concat {s : Bytes} (h0 : 0 ∉ s) (h10 : 10 ∉ s) : lineOf (s ++ [10]) = s := by
  have hself := lineOf_eq_self h0 h10
  rw [lineOf] at hself ⊢
  rw [List.takeWhile_append_of_pos (List.takeWhile_eq_self_iff.mp hself)]
  simp

/-- Empty texts apart, `fgets` with a buffer of `n + 1` bytes reads the
pieces of `n` bytes of the lines; `cur` belongs to the first one. -/
theorem fgetsAll_lines {n : Nat} (hn : 0 < n) : ∀ (file cur : Bytes), cur.length < n →
    0 ∉ cur → 10 ∉ cur → 0 ∉ file →
    ∃ first rest, file.splitOn 10 = first :: rest ∧
      ((fgetsAll (n + 1) cur file).map lineOf).filter (· ≠ [])
        = chunks n (cur ++ first) ++ rest.flatMap (chunks n) := by
  intro file
  induction file with
  | nil =>
      intro cur hlen h0 h10 _
      refine ⟨[], [], List.splitOn_nil _, ?_⟩
      by_cases hcur : cur = []
      · simp [fgetsAll, hcur, chunks_nil hn]
      · rw [List.append_nil, chunks_of_length_le hcur (by omega)]
        simp [fgetsAll, hcur, lineOf_eq_self h0 h10]
  | cons b file ih =>
      intro cur hlen h0 h10 hfile
      have hb : 0 ≠ b := fun h => hfile (h ▸ List.mem_cons_self)
      have hrest : 0 ∉ file := fun h => hfile (List.mem_cons_of_mem _ h)
      obtain ⟨first, rest, hsplit, hreads⟩ := ih [] hn (by simp) (by simp) hrest
      rw [List.splitOn_cons_eq_if_modifyHead, hsplit]
      by_cases hnewline : b = 10
      · subst hnewline
        refine ⟨[], first :: rest, by simp, ?_⟩
        rw [fgetsAll, if_pos (.inl rfl), List.map_cons, lineOf_concat h0 h10, List.append_nil,
          List.flatMap_cons]
        by_cases hcur : cur = []
        · rw [List.filter_cons_of_neg (by simp [hcur]), hreads, hcur, chunks_nil hn]
          rfl
        · rw [List.filter_cons_of_pos (by simp [hcur]), hreads, chunks_of_length_le hcur (by omega)]
          rfl
      · have h0' : 0 ∉ cur ++ [b] := by simp [h0, hb]
        have h10' : 10 ∉ cur ++ [b] := by simp [h10, Ne.symm hnewline]
        refine ⟨b :: first, rest, by simp [hnewline], ?_⟩
        rw [List.append_cons cur b first]
        by_cases hfull : n + 1 ≤ cur.length + 2
        · -- the buffer is full
          have hlen' : (cur ++ [b]).length = n := by simp; omega
          rw [fgetsAll, if_pos (.inr hfull), List.map_cons, lineOf_eq_self h0' h10',
            List.filter_cons_of_pos (by simp), hreads, chunks_append hn hlen']
          rfl
        · obtain ⟨first', rest', hsplit', hreads'⟩ :=
            ih (cur ++ [b]) (by simp; omega) h0' h10' hrest
          rw [hsplit, List.cons.injEq] at hsplit'
          obtain ⟨rfl, rfl⟩ := hsplit'
          rw [fgetsAll, if_neg (by simp [hnewline]; omega), hreads']

/-- The texts that a file of lines is read as. -/
theorem fgetsAll_file {n : Nat} (hn : 0 < n) {file : Bytes} (h : 0 ∉ file) :
    ((fgetsAll (n + 1) [] file).map lineOf).filter (· ≠ [])
      = (file.splitOn 10).flatMap (chunks n) := by
  obtain ⟨first, rest, hsplit, hreads⟩ := fgetsAll_lines hn file [] hn (by simp) (by simp) h
  rw [hreads, hsplit, List.nil_append, List.flatMap_cons]

/-! ## Digits -/

/-- `"%d"`. -/
def decimal (n : Int) : Bytes := ascii (toString n)

/-- The last digit, with the others in front of it. -/
theorem decimal_eq_if (n : Nat) : decimal n
    = if n < 10 then [UInt8.ofNat (48 + n)]
      else decimal (n / 10 : Nat) ++ [UInt8.ofNat (48 + n % 10)] := by
  have hdigit : ∀ d, d < 10 → (Nat.digitChar d).toNat = 48 + d := by decide
  have htoString : ∀ m : Nat, (toString (m : Int)).toList = Nat.toDigits 10 m := by
    intro m
    have hnat : toString (m : Int) = toString m := rfl
    rw [hnat, Nat.toString_eq_repr, Nat.toList_repr]
  rw [decimal, decimal, ascii, ascii, htoString, htoString, Nat.toDigits_eq_if (by decide)]
  split
  · next hlt => simp [hdigit n hlt]
  · simp [hdigit (n % 10) (Nat.mod_lt _ (by decide))]

theorem decimalValue_concat (s : Bytes) (d : UInt8) :
    decimalValue (s ++ [d]) = 10 * decimalValue s + (d.toNat - 48) := by
  simp [decimalValue]

theorem toNat_digit {d : Nat} (h : d < 10) : (UInt8.ofNat (48 + d)).toNat = 48 + d := by
  rw [UInt8.toNat_ofNat']
  omega

theorem isDigit_digit {d : Nat} (h : d < 10) : isDigit (UInt8.ofNat (48 + d)) = true := by
  have hd := toNat_digit h
  simp only [isDigit, Bool.and_eq_true, decide_eq_true_eq, UInt8.le_iff_toNat_le, hd]
  exact ⟨by simp, by simp; omega⟩

theorem isDigit_of_mem_decimal (n : Nat) : ∀ b ∈ decimal n, isDigit b = true := by
  induction n using Nat.strong_induction_on with
  | _ n ih =>
      intro b hb
      rw [decimal_eq_if] at hb
      split at hb
      · next hlt =>
          rw [List.mem_singleton] at hb
          exact hb ▸ isDigit_digit hlt
      · rcases List.mem_append.mp hb with hb | hb
        · exact ih (n / 10) (by omega) b hb
        · rw [List.mem_singleton] at hb
          exact hb ▸ isDigit_digit (Nat.mod_lt _ (by decide))

theorem decimalValue_decimal (n : Nat) : decimalValue (decimal n) = n := by
  induction n using Nat.strong_induction_on with
  | _ n ih =>
      rw [decimal_eq_if]
      split
      · next hlt =>
          have hd := toNat_digit hlt
          rw [decimalValue, List.foldl_cons, List.foldl_nil, hd]
          omega
      · have hd := toNat_digit (Nat.mod_lt n (by decide : 10 > 0))
        rw [decimalValue_concat, ih (n / 10) (by omega), hd]
        omega

/-- The number that the first digits of a positive number show. -/
theorem decimalValue_take_decimal {n : Nat} (hn : 1 ≤ n) {j : Nat} (hj : 1 ≤ j) :
    1 ≤ decimalValue ((decimal n).take j) ∧ decimalValue ((decimal n).take j) ≤ n := by
  induction n using Nat.strong_induction_on with
  | _ n ih =>
      by_cases hall : (decimal n).length ≤ j
      · rw [List.take_of_length_le hall, decimalValue_decimal]
        exact ⟨hn, Nat.le_refl n⟩
      · rw [decimal_eq_if] at hall ⊢
        split
        · next hlt =>
            rw [if_pos hlt] at hall
            exact absurd hj hall
        · next hge =>
            -- the last digit is among those that are cut off
            rw [if_neg hge, List.length_append, List.length_singleton] at hall
            rw [List.take_append_of_le_length (by omega)]
            have hrest := ih (n / 10) (by omega) (by omega)
            exact ⟨hrest.1, by omega⟩

theorem decimal_length_le {n k : Nat} (hk : 0 < k) (h : n < 10 ^ k) : (decimal n).length ≤ k := by
  have hnat : toString (n : Int) = toString n := rfl
  rw [decimal, ascii, List.length_map, hnat, Nat.toString_eq_repr, Nat.toList_repr]
  exact (Nat.length_toDigits_le_iff (by decide) hk).mpr h

theorem decimal_ne_nil (n : Nat) : decimal n ≠ [] := by
  rw [decimal_eq_if]
  split <;> simp

/-! ## Reading back -/

/-- `atoi` on digits alone. -/
theorem atoi_digits {s : Bytes} (hdigits : ∀ b ∈ s, isDigit b = true)
    (hlt : decimalValue s < 2 ^ 31) : atoi s = decimalValue s := by
  have hspace : s.dropWhile isSpace = s := by
    cases s with
    | nil => rfl
    | cons b s =>
        have hb := hdigits b (by simp)
        have hnot : isSpace b = false := by
          simp only [isDigit, isSpace, Bool.and_eq_true, decide_eq_true_eq, Bool.or_eq_false_iff,
            decide_eq_false_iff_not, Bool.and_eq_false_iff, UInt8.le_iff_toNat_le,
            ← UInt8.toNat_inj, UInt8.reduceToNat] at hb ⊢
          omega
        simp [hnot]
  have hsign : splitSign s = (false, s) := by
    unfold splitSign
    split
    · have hb := hdigits 45 (by simp)
      exact absurd hb (by decide)
    · have hb := hdigits 43 (by simp)
      exact absurd hb (by decide)
    · rfl
  have hnat : (decimalValue s : Int) % 2 ^ 32 = decimalValue s := by omega
  rw [atoi, strtol, hspace, hsign]
  simp only [List.takeWhile_eq_self_iff.mpr hdigits, intOfLong, Bool.false_eq_true, if_false]
  rw [Nat.min_eq_left (by omega), hnat, Int.toNat_natCast, toInt_of_lt hlt]

theorem atoi_decimal {n : Nat} (hn : n < 2 ^ 31) : atoi (decimal n) = n := by
  rw [atoi_digits (isDigit_of_mem_decimal n) (by rwa [decimalValue_decimal]), decimalValue_decimal]

/-- A number that lost its last digits is between 1 and the whole. -/
theorem atoi_take_decimal {n : Nat} (hn : 1 ≤ n) (hlt : n < 2 ^ 31) {j : Nat} (hj : 1 ≤ j) :
    1 ≤ atoi ((decimal n).take j) ∧ atoi ((decimal n).take j) ≤ n := by
  have hbounds := decimalValue_take_decimal hn hj
  rw [atoi_digits (fun b hb => isDigit_of_mem_decimal n b (List.mem_of_mem_take hb)) (by omega)]
  omega

example : (decimal 1234).take 2 = ascii "12" := by decide

end VideoMatch.Cxx
