/-
VideoMatch.Machine.LastWins — lists in which the last entry with a label
counts.

A map that is filled by assignments in the order of a list holds, for each
label, the last entry that carries it (`lastWith`). If the entries are cut
into pieces first and the pieces are entered instead, the map is the same
exactly if the entries that are cut do no harm: each that carries a label
is overridden later on, and each of its pieces that carries one is
overridden, too, or is what counts anyway (`lastWith_flatMap_iff`).
-/
import Mathlib

namespace VideoMatch.Machine

section LastWins

variable {α κ : Type*} [DecidableEq κ] (label : α → Option κ)

/-- The last entry with this label. -/
def lastWith (k : κ) (xs : List α) : Option α := xs.reverse.find? fun x => label x = some k

variable {label}

theorem lastWith_concat (k : κ) (xs : List α) (x : α) :
    lastWith label k (xs ++ [x]) = if label x = some k then some x else lastWith label k xs := by
  rw [lastWith, List.reverse_append, List.reverse_singleton, List.singleton_append, List.find?_cons]
  by_cases hx : label x = some k
  · simp [hx]
  · simp [hx, lastWith]

theorem lastWith_eq_none_iff {k : κ} {xs : List α} :
    lastWith label k xs = none ↔ ∀ x ∈ xs, label x ≠ some k := by
  simp [lastWith, List.find?_eq_none]

/-- An entry counts if it carries the label and none behind it does. -/
theorem lastWith_eq_some_iff {k : κ} {xs : List α} {x : α} :
    lastWith label k xs = some x ↔ ∃ before after, xs = before ++ x :: after ∧
      label x = some k ∧ ∀ y ∈ after, label y ≠ some k := by
  rw [lastWith, List.find?_eq_some_iff_append]
  constructor
  · intro h
    obtain ⟨hx, as, bs, hxs, has⟩ := h
    refine ⟨bs.reverse, as.reverse, ?_, by simpa using hx, fun y hy => ?_⟩
    · rw [← List.reverse_reverse xs, hxs]
      simp
    · simpa using has y (List.mem_reverse.mp hy)
  · intro h
    obtain ⟨before, after, rfl, hx, hafter⟩ := h
    refine ⟨by simpa using hx, after.reverse, before.reverse, by simp, fun y hy => ?_⟩
    simpa using hafter y (List.mem_reverse.mp hy)

/-- Entries without any label do not matter. -/
theorem lastWith_filter {k : κ} {xs : List α} {p : α → Bool}
    (h : ∀ x, label x ≠ none → p x = true) :
    lastWith label k (xs.filter p) = lastWith label k xs := by
  rw [lastWith, lastWith, ← List.filter_reverse, List.find?_filter]
  congr 1
  funext x
  by_cases hx : label x = some k
  · simp [hx, h x (by simp [hx])]
  · simp [hx]

/-! ## Entries in pieces -/

/-- A piece among the pieces of all entries belongs to one of them. -/
theorem exists_of_flatMap_eq {cut : α → List α} {xs as bs : List α} {p : α}
    (h : xs.flatMap cut = as ++ p :: bs) :
    ∃ before x after ps qs, xs = before ++ x :: after ∧ cut x = ps ++ p :: qs ∧
      as = before.flatMap cut ++ ps ∧ bs = qs ++ after.flatMap cut := by
  induction xs generalizing as with
  | nil => simp at h
  | cons x xs ih =>
      rw [List.flatMap_cons, List.append_eq_append_iff] at h
      rcases h with ⟨as', rfl, hxs⟩ | ⟨cs, hx, hcs⟩
      · obtain ⟨before, y, after, ps, qs, rfl, hy, rfl, rfl⟩ := ih hxs
        exact ⟨x :: before, y, after, ps, qs, rfl, hy, by simp, rfl⟩
      · cases cs with
        | nil =>
            obtain ⟨before, y, after, ps, qs, rfl, hy, hnil, rfl⟩ :=
              ih (show xs.flatMap cut = [] ++ p :: bs from hcs.symm)
            exact ⟨x :: before, y, after, ps, qs, rfl, hy, by simp [← hnil, hx], rfl⟩
        | cons c cs =>
            obtain ⟨rfl, rfl⟩ := List.cons.inj hcs
            exact ⟨[], x, xs, as, cs, rfl, hx, rfl, rfl⟩

variable (label) in
/-- Cutting the entries that are not whole does no harm: such an entry is
overridden later on if it carries a label; a piece of it that carries one
is overridden, too, by a piece that comes later, or is the entry that
counts. -/
structure CutHarmless (whole : α → Prop) (cut : α → List α) (xs : List α) : Prop where
  overridden : ∀ before x after k, xs = before ++ x :: after → ¬ whole x → label x = some k →
    ∃ y ∈ after, label y = some k
  pieces : ∀ before x after ps p qs k, xs = before ++ x :: after → ¬ whole x →
    cut x = ps ++ p :: qs → label p = some k →
    (∃ y ∈ qs ++ after.flatMap cut, label y = some k) ∨ lastWith label k xs = some p

variable {whole : α → Prop} {cut : α → List α} {xs : List α}

/-- Nothing is cut. -/
theorem cutHarmless_of_whole (h : ∀ x ∈ xs, whole x) : CutHarmless label whole cut xs := by
  constructor
  · intro before x after k hxs hnot
    exact absurd (h x (by simp [hxs])) hnot
  · intro before x after ps p qs k hxs hnot
    exact absurd (h x (by simp [hxs])) hnot

/-- What counts among the entries is whole. -/
theorem CutHarmless.whole_of_lastWith (h : CutHarmless label whole cut xs) {before after : List α}
    (hxs : xs = before ++ after) {k : κ} {x : α} (hx : lastWith label k after = some x) :
    whole x := by
  by_contra hnot
  obtain ⟨front, back, rfl, hlabel, hback⟩ := lastWith_eq_some_iff.mp hx
  obtain ⟨y, hy, hky⟩ := h.overridden (before ++ front) x back k (by simp [hxs]) hnot hlabel
  exact hback y hy hky

/-- If none of the pieces carries the label, no entry does. -/
theorem CutHarmless.lastWith_eq_none (h : CutHarmless label whole cut xs)
    (hcut : ∀ x, whole x → cut x = [x] ∨ cut x = [] ∧ label x = none)
    (before after : List α) (hxs : xs = before ++ after) {k : κ}
    (hnone : ∀ p ∈ after.flatMap cut, label p ≠ some k) : lastWith label k after = none := by
  cases hlast : lastWith label k after with
  | none => rfl
  | some x =>
      exfalso
      obtain ⟨front, back, rfl, hlabel, -⟩ := lastWith_eq_some_iff.mp hlast
      rcases hcut x (h.whole_of_lastWith hxs hlast) with hself | ⟨-, hempty⟩
      · exact hnone x (by simp [hself]) hlabel
      · rw [hempty] at hlabel
        cases hlabel

/-- The pieces say the same as the entries exactly if cutting does no harm. -/
theorem lastWith_flatMap_iff
    (hcut : ∀ x, whole x → cut x = [x] ∨ cut x = [] ∧ label x = none)
    (hpiece : ∀ x, ∀ p ∈ cut x, whole p) :
    (∀ k, lastWith label k (xs.flatMap cut) = lastWith label k xs) ↔
      CutHarmless label whole cut xs := by
  constructor
  · intro hsame
    constructor
    · intro before x after k hxs hnot hlabel
      by_contra hafter
      push Not at hafter
      have hlast : lastWith label k xs = some x :=
        lastWith_eq_some_iff.mpr ⟨before, after, hxs, hlabel, hafter⟩
      obtain ⟨as, bs, hpieces, -⟩ := lastWith_eq_some_iff.mp ((hsame k).trans hlast)
      obtain ⟨y, -, hy⟩ := List.mem_flatMap.mp (hpieces ▸ List.mem_append_cons_self)
      exact hnot (hpiece y x hy)
    · intro before x after ps p qs k hxs _ hx hlabel
      by_contra hnot
      push Not at hnot
      refine hnot.2 ((hsame k).symm.trans (lastWith_eq_some_iff.mpr ?_))
      exact ⟨before.flatMap cut ++ ps, qs ++ after.flatMap cut, by simp [hxs, hx], hlabel, hnot.1⟩
  · intro h k
    cases hlast : lastWith label k (xs.flatMap cut) with
    | none =>
        have hnone := lastWith_eq_none_iff.mp hlast
        exact (h.lastWith_eq_none hcut [] xs rfl hnone).symm
    | some p =>
        obtain ⟨as, bs, hpieces, hlabel, hbs⟩ := lastWith_eq_some_iff.mp hlast
        obtain ⟨before, x, after, ps, qs, hxs, hx, -, rfl⟩ := exists_of_flatMap_eq hpieces
        by_cases hwhole : whole x
        · -- the piece is the entry itself
          rcases hcut x hwhole with hself | ⟨hempty, -⟩
          · rw [hself] at hx
            obtain ⟨rfl, hrest⟩ : ps = [] ∧ [x] = p :: qs := by
              cases ps with
              | nil => exact ⟨rfl, hx⟩
              | cons y ys => simp at hx
            obtain ⟨rfl, rfl⟩ := List.cons.inj hrest
            have hafter := h.lastWith_eq_none hcut (before ++ [x]) after (by simp [hxs]) hbs
            symm
            exact lastWith_eq_some_iff.mpr
              ⟨before, after, hxs, hlabel, lastWith_eq_none_iff.mp hafter⟩
          · rw [hempty] at hx
            simp at hx
        · rcases h.pieces before x after ps p qs k hxs hwhole hx hlabel with hlater | hcounts
          · obtain ⟨y, hy, hky⟩ := hlater
            exact absurd hky (hbs y hy)
          · exact hcounts.symm

end LastWins

end VideoMatch.Machine
