/-
VideoMatch.Cxx.Search — `std::string::find`.

`find s pat pos` is the first position from `pos` on at which `pat` occurs
in `s`. The first occurrence in a string is the first one in every longer
string too (`find_append`). So a buffer may be searched again after more
input has been appended, and the answer does not change once there is one.
-/
import Mathlib

namespace VideoMatch.Cxx

variable {α : Type*} [DecidableEq α]

/-- The first position at which `pat` occurs. -/
def findAt (pat : List α) : List α → Option Nat
  | [] => if pat = [] then some 0 else none
  | b :: s => if pat.isPrefixOf (b :: s) then some 0 else (findAt pat s).map (· + 1)

/-- `s.find(pat, pos)`; `npos` is `none`. -/
def find (s pat : List α) (pos : Nat) : Option Nat :=
  if pos ≤ s.length then (findAt pat (s.drop pos)).map (· + pos) else none

variable {pat : List α}

theorem findAt_length : ∀ {s : List α} {i : Nat}, findAt pat s = some i →
    i + pat.length ≤ s.length := by
  intro s
  induction s with
  | nil =>
      intro i h
      simp only [findAt, Option.ite_none_right_eq_some, Option.some.injEq] at h
      simp [h.1, ← h.2]
  | cons b s ih =>
      intro i h
      rw [findAt] at h
      by_cases hp : pat.isPrefixOf (b :: s) = true
      · simp only [hp, if_true, Option.some.injEq] at h
        have hle := (List.isPrefixOf_iff_prefix.mp hp).length_le
        omega
      · simp only [hp, if_false, Option.map_eq_some_iff, Bool.false_eq_true] at h
        obtain ⟨j, hj, rfl⟩ := h
        have hle := ih hj
        simp only [List.length_cons]
        omega

theorem findAt_isPrefix : ∀ {s : List α} {i : Nat}, findAt pat s = some i → pat <+: s.drop i := by
  intro s
  induction s with
  | nil =>
      intro i h
      simp only [findAt, Option.ite_none_right_eq_some, Option.some.injEq] at h
      simp [h.1]
  | cons b s ih =>
      intro i h
      rw [findAt] at h
      by_cases hp : pat.isPrefixOf (b :: s) = true
      · simp only [hp, if_true, Option.some.injEq] at h
        simpa [← h] using List.isPrefixOf_iff_prefix.mp hp
      · simp only [hp, if_false, Option.map_eq_some_iff, Bool.false_eq_true] at h
        obtain ⟨j, hj, rfl⟩ := h
        simpa using ih hj

/-- The first occurrence is the first. -/
theorem findAt_least : ∀ {s : List α} {i : Nat}, findAt pat s = some i → ∀ j < i,
    ¬ pat <+: s.drop j := by
  intro s
  induction s with
  | nil =>
      intro i h j hj
      simp only [findAt, Option.ite_none_right_eq_some, Option.some.injEq] at h
      omega
  | cons b s ih =>
      intro i h j hj
      rw [findAt] at h
      by_cases hp : pat.isPrefixOf (b :: s) = true
      · simp only [hp, if_true, Option.some.injEq] at h
        omega
      · simp only [hp, if_false, Option.map_eq_some_iff, Bool.false_eq_true] at h
        obtain ⟨k, hk, rfl⟩ := h
        cases j with
        | zero => rwa [List.isPrefixOf_iff_prefix] at hp
        | succ j => exact ih hk j (by omega)

theorem findAt_append (t : List α) : ∀ {s : List α} {i : Nat}, findAt pat s = some i →
    findAt pat (s ++ t) = some i := by
  intro s
  induction s with
  | nil =>
      intro i h
      simp only [findAt, Option.ite_none_right_eq_some, Option.some.injEq] at h
      cases t <;> simp [findAt, h.1, ← h.2]
  | cons b s ih =>
      intro i h
      have hlen := findAt_length h
      rw [List.length_cons] at hlen
      rw [findAt] at h
      by_cases hp : pat.isPrefixOf (b :: s) = true
      · have hp' : pat.isPrefixOf (b :: (s ++ t)) = true := by
          rw [List.isPrefixOf_iff_prefix] at hp ⊢
          exact hp.trans (List.prefix_append (b :: s) t)
        simp only [hp, if_true] at h
        simp [findAt, hp', h]
      · -- a match that needs the new bytes would start behind the one there is
        have hp' : ¬ pat.isPrefixOf (b :: (s ++ t)) = true := by
          rw [List.isPrefixOf_iff_prefix] at hp ⊢
          intro hpre
          exact hp (List.prefix_of_prefix_length_le hpre (List.prefix_append (b :: s) t)
            (by rw [List.length_cons]; omega))
        simp only [hp, if_false, Option.map_eq_some_iff, Bool.false_eq_true] at h
        obtain ⟨j, hj, rfl⟩ := h
        simp [findAt, hp', ih hj]

/-- No match starts in front of the first occurrence of its first element. -/
theorem findAt_skip (a : α) (pat t : List α) : ∀ {s : List α}, a ∉ s →
    findAt (a :: pat) (s ++ t) = (findAt (a :: pat) t).map (· + s.length) := by
  intro s
  induction s with
  | nil => intro _; simp
  | cons b s ih =>
      intro h
      simp only [List.mem_cons, not_or] at h
      simp [findAt, ih h.2, h.1, Function.comp_def, Nat.add_assoc]

section

variable {s t : List α} {pos i : Nat}

theorem find_eq_some : find s pat pos = some i ↔
    pos ≤ s.length ∧ ∃ j, findAt pat (s.drop pos) = some j ∧ j + pos = i := by
  simp [find, Option.map_eq_some_iff]

/-- A match lies behind `pos` and within the string. -/
theorem find_bounds (h : find s pat pos = some i) : pos ≤ i ∧ i + pat.length ≤ s.length := by
  obtain ⟨hpos, j, hj, rfl⟩ := find_eq_some.mp h
  have hle := findAt_length hj
  rw [List.length_drop] at hle
  omega

/-- What is found at a match. -/
theorem find_isPrefix (h : find s pat pos = some i) : pat <+: s.drop i := by
  obtain ⟨-, j, hj, rfl⟩ := find_eq_some.mp h
  simpa [List.drop_drop, Nat.add_comm] using findAt_isPrefix hj

/-- In front of the first match there is none. -/
theorem find_not_infix (hpat : pat ≠ []) (h : find s pat 0 = some i) : ¬ pat <:+: s.take i := by
  obtain ⟨-, j, hj, rfl⟩ := find_eq_some.mp h
  intro hinside
  obtain ⟨u, v, huv⟩ := hinside
  have hlen := congrArg List.length huv
  have hpos := List.length_pos_iff.mpr hpat
  have hle := List.length_take_le (j + 0) s
  simp only [List.length_append] at hlen
  refine findAt_least hj u.length (by omega) ⟨v ++ s.drop (j + 0), ?_⟩
  have hs : s = u ++ (pat ++ (v ++ s.drop (j + 0))) := by
    rw [← List.append_assoc, ← List.append_assoc, huv, List.take_append_drop]
  conv_rhs => rw [List.drop_zero, hs, List.drop_left]

/-- A match stays the first one when the string grows. -/
theorem find_append (t : List α) (h : find s pat pos = some i) :
    find (s ++ t) pat pos = some i := by
  obtain ⟨hpos, j, hj, rfl⟩ := find_eq_some.mp h
  refine find_eq_some.mpr ⟨by simp; omega, j, ?_, rfl⟩
  rw [List.drop_append_of_le_length hpos]
  exact findAt_append t hj

end

end VideoMatch.Cxx
