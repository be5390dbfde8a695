/-
VideoMatch.Machine.Recency — lists kept in order of use, within a bound.

A least-recently-used policy is three operations on a list whose first
element was used last: an element is moved to the front, a new one is put
there, and the list is cut so that its total weight stays within a bound.
`keep` does the cutting at once. It returns the longest prefix within the
bound (`total_keep_le`, `isPrefix_keep`), which is where dropping elements
from the end one by one stops (`keep_concat`, `keep_eq_self`).
-/
import Mathlib

namespace VideoMatch.Machine.Recency

variable {ι κ : Type*} (weight : ι → Nat)

/-- The weight of all elements. -/
def total (l : List ι) : Nat := (l.map weight).sum

/-- The longest prefix whose weight is within `bound`. -/
def keep : Nat → List ι → List ι
  | _, [] => []
  | bound, x :: l => if weight x ≤ bound then x :: keep (bound - weight x) l else []

/-- The element `x` becomes the first. -/
def touch [DecidableEq ι] (x : ι) (l : List ι) : List ι := x :: l.erase x

theorem touch_append [DecidableEq ι] {x : ι} {l m : List ι} (h : x ∉ l) :
    touch x (l ++ x :: m) = x :: (l ++ m) := by
  rw [touch, List.erase_append_right _ h, List.erase_cons_head]

variable {weight}

@[simp] theorem total_nil : total weight [] = 0 := rfl

@[simp] theorem total_cons (x : ι) (l : List ι) :
    total weight (x :: l) = weight x + total weight l := by simp [total]

@[simp] theorem total_append (l m : List ι) :
    total weight (l ++ m) = total weight l + total weight m := by simp [total]

theorem keep_isPrefix : ∀ (l : List ι) (bound : Nat), keep weight bound l <+: l := by
  intro l
  induction l with
  | nil => intro bound; exact List.prefix_rfl
  | cons x l ih =>
      intro bound
      rw [keep]
      split
      · exact (List.prefix_cons_inj x).mpr (ih _)
      · exact List.nil_prefix

theorem total_keep_le : ∀ (l : List ι) (bound : Nat),
    total weight (keep weight bound l) ≤ bound := by
  intro l
  induction l with
  | nil => intro bound; exact Nat.zero_le _
  | cons x l ih =>
      intro bound
      rw [keep]
      split
      · have hrest := ih (bound - weight x)
        rw [total_cons]
        omega
      · exact Nat.zero_le _

/-- No longer prefix is within the bound. -/
theorem isPrefix_keep : ∀ {l m : List ι} {bound : Nat}, m <+: l → total weight m ≤ bound →
    m <+: keep weight bound l := by
  intro l
  induction l with
  | nil => intro m bound h _; exact h
  | cons x l ih =>
      intro m bound h hm
      cases m with
      | nil => exact List.nil_prefix
      | cons y m =>
          obtain ⟨rfl, hrest⟩ := List.cons_prefix_cons.mp h
          rw [total_cons] at hm
          rw [keep, if_pos (by omega)]
          exact (List.prefix_cons_inj y).mpr (ih hrest (by omega))

/-- A list within the bound is kept. -/
theorem keep_eq_self {l : List ι} {bound : Nat} (h : total weight l ≤ bound) :
    keep weight bound l = l :=
  (keep_isPrefix l bound).eq_of_length_le (isPrefix_keep List.prefix_rfl h).length_le

/-- The last element of a list that is too heavy is not kept. -/
theorem keep_concat : ∀ {l : List ι} {x : ι} {bound : Nat},
    bound < total weight (l ++ [x]) → keep weight bound (l ++ [x]) = keep weight bound l := by
  intro l
  induction l with
  | nil =>
      intro x bound h
      simp only [List.nil_append, total_cons, total_nil] at h
      have hheavy : ¬ weight x ≤ bound := by omega
      simp [keep, hheavy]
  | cons y l ih =>
      intro x bound h
      rw [List.cons_append, total_cons] at h
      rw [List.cons_append, keep, keep]
      split
      · rw [ih (by omega)]
      · rfl

theorem keep_eq_nil {x : ι} {l : List ι} {bound : Nat} (h : bound < weight x) :
    keep weight bound (x :: l) = [] := by
  rw [keep, if_neg (by omega)]

/-- Cutting commutes with a view of the elements that shows their weights. -/
theorem keep_map {f : κ → ι} {weight' : κ → Nat} : ∀ {l : List κ} {bound : Nat},
    (∀ x ∈ l, weight (f x) = weight' x) →
    keep weight bound (l.map f) = (keep weight' bound l).map f := by
  intro l
  induction l with
  | nil => intro bound _; rfl
  | cons x l ih =>
      intro bound h
      have hx := h x (by simp)
      rw [List.map_cons, keep, keep, ih fun y hy => h y (List.mem_cons_of_mem _ hy), hx]
      by_cases hle : weight' x ≤ bound <;> simp [hle]

end VideoMatch.Machine.Recency
