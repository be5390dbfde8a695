/-
VideoMatch.Machine.Ledger — items that are issued one by one and put into
boxes.

Each item is numbered when it is issued, so that two issues of the same
thing stay apart. At most one item is on its way, and every other issued
item is in exactly one box, once. `Accounted` says so, and it is kept by the
three things that can happen: an item is issued (`issue`), the item on its
way is put into a box (`deliver`), and boxes are added (`mono`).
-/
import Mathlib

namespace VideoMatch.Machine

variable {ι α : Type*}

/-- The numbers of the items. -/
def numbers (items : List (Nat × α)) : List Nat := items.map Prod.fst

@[simp] theorem numbers_nil : numbers ([] : List (Nat × α)) = [] := rfl

@[simp] theorem numbers_append (l m : List (Nat × α)) :
    numbers (l ++ m) = numbers l ++ numbers m := List.map_append

@[simp] theorem numbers_cons (x : Nat × α) (l : List (Nat × α)) :
    numbers (x :: l) = x.1 :: numbers l := rfl

/-- `issued` in order of issue, the item on its way, and what the boxes have
received. `live` are the boxes there are. -/
structure Accounted [DecidableEq ι] (live : ι → Prop) (issued : List α) (carried : Option (Nat × α))
    (boxes : ι → List (Nat × α)) : Prop where
  carried_issued : ∀ x ∈ carried, issued[x.1]? = some x.2
  carried_nowhere : ∀ x ∈ carried, ∀ i, x.1 ∉ numbers (boxes i)
  genuine : ∀ i, ∀ x ∈ boxes i, issued[x.1]? = some x.2
  delivered : ∀ k a, issued[k]? = some a → (∀ x ∈ carried, x.1 ≠ k) →
    ∃ i, live i ∧ (k, a) ∈ boxes i ∧
      ∀ j, (numbers (boxes j)).count k = if j = i then 1 else 0

namespace Accounted

variable [DecidableEq ι] {live live' : ι → Prop} {issued : List α} {carried : Option (Nat × α)}
  {boxes : ι → List (Nat × α)}

theorem empty (live : ι → Prop) : Accounted live ([] : List α) none fun _ => [] :=
  ⟨by simp, by simp, by simp, by simp⟩

/-- Boxes may be added. -/
theorem mono (h : Accounted live issued carried boxes) (hlive : ∀ i, live i → live' i) :
    Accounted live' issued carried boxes where
  carried_issued := h.carried_issued
  carried_nowhere := h.carried_nowhere
  genuine := h.genuine
  delivered := by
    intro k a hk hcarried
    obtain ⟨i, hi, hmem, hcount⟩ := h.delivered k a hk hcarried
    exact ⟨i, hlive i hi, hmem, hcount⟩

/-- A number that has not been issued is in no box. -/
theorem not_mem_of_length_le (h : Accounted live issued carried boxes) {k : Nat}
    (hk : issued.length ≤ k) (i : ι) : k ∉ numbers (boxes i) := by
  intro hmem
  obtain ⟨x, hx, rfl⟩ := List.mem_map.mp hmem
  have hissued := h.genuine i x hx
  rw [List.getElem?_eq_none hk] at hissued
  cases hissued

/-- The next item gets the next number. -/
theorem issue (h : Accounted live issued none boxes) (a : α) :
    Accounted live (issued ++ [a]) (some (issued.length, a)) boxes where
  carried_issued := by simp
  carried_nowhere := by
    intro x hx
    cases hx
    exact h.not_mem_of_length_le le_rfl
  genuine := by
    intro i x hx
    have hissued := h.genuine i x hx
    rw [List.getElem?_append_left (List.getElem?_eq_some_iff.mp hissued).1]
    exact hissued
  delivered := by
    intro k b hk hcarried
    have hne := hcarried _ rfl
    have hlt : k < issued.length := by
      have hle := (List.getElem?_eq_some_iff.mp hk).1
      simp at hle hne
      omega
    rw [List.getElem?_append_left hlt] at hk
    exact h.delivered k b hk (by simp)

/-- The item on its way is put into a box. -/
theorem deliver {x : Nat × α} (h : Accounted live issued (some x) boxes) {i : ι} (hi : live i) :
    Accounted live issued none (Function.update boxes i (boxes i ++ [x])) where
  carried_issued := by simp
  carried_nowhere := by simp
  genuine := by
    intro j y hy
    by_cases hj : j = i
    · subst hj
      rw [Function.update_self, List.mem_append, List.mem_singleton] at hy
      rcases hy with hy | rfl
      · exact h.genuine j y hy
      · exact h.carried_issued y rfl
    · rw [Function.update_of_ne hj] at hy
      exact h.genuine j y hy
  delivered := by
    intro k a hk _
    have hcount : ∀ j, (numbers (Function.update boxes i (boxes i ++ [x]) j)).count k
        = (numbers (boxes j)).count k + if j = i ∧ x.1 = k then 1 else 0 := by
      intro j
      by_cases hj : j = i
      · subst hj
        simp [List.count_append, List.count_singleton]
      · simp [hj]
    by_cases hx : x.1 = k
    · -- the item itself: it was nowhere before
      have ha : x = (k, a) := by
        have hissued := h.carried_issued x rfl
        rw [hx, hk] at hissued
        cases hissued
        rw [← hx]
      refine ⟨i, hi, by simp [ha], fun j => ?_⟩
      have hzero : (numbers (boxes j)).count k = 0 :=
        List.count_eq_zero_of_not_mem (hx ▸ h.carried_nowhere x rfl j)
      simp [hcount, hzero, hx]
    · obtain ⟨i', hi', hmem, hcount'⟩ := h.delivered k a hk (by simpa using hx)
      refine ⟨i', hi', ?_, fun j => by simp [hcount, hcount', hx]⟩
      by_cases hne : i' = i
      · subst hne
        simp [hmem]
      · simpa [hne] using hmem

end Accounted

end VideoMatch.Machine
