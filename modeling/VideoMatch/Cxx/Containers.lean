/-
VideoMatch.Cxx.Containers — the hash containers of the C++ library.

`std::unordered_map`, `unordered_set` and `unordered_multimap` promise
nothing about the order in which they are walked: it depends on the hash
function, on the bucket count and, for pointer keys, on addresses. The
models below hold the elements in insertion order, and every walk takes
an `IterOrder`, an arbitrary permutation, as an argument. A statement
about a walk quantifies over the `IterOrder`, so it holds for every
library and every run.

* `UnorderedMap` carries the uniqueness of its keys as a field; `insert`
  does not overwrite, as `std::unordered_map::insert` does not, and
  `assign` does. `StdMap` is `std::map` for code that does not observe the
  order of a walk over it.
* `unorderedSet l` is the set that `l`'s elements make when they are
  inserted one by one.
* `EqualRange` is the order in which a multimap from values to positions
  yields the positions of one value.
-/
import Mathlib

namespace VideoMatch.Cxx

variable {α κ ν : Type*}

/-! ## Walks -/

/-- The order of one walk over a hash container. -/
structure IterOrder (α : Type*) where
  order : List α → List α
  perm : ∀ l, (order l).Perm l

instance : Inhabited (IterOrder α) := ⟨⟨id, fun _ => .refl _⟩⟩

namespace IterOrder

@[simp] theorem mem_order (o : IterOrder α) {l : List α} {a : α} : a ∈ o.order l ↔ a ∈ l :=
  (o.perm l).mem_iff

theorem nodup_order (o : IterOrder α) {l : List α} : (o.order l).Nodup ↔ l.Nodup :=
  (o.perm l).nodup_iff

end IterOrder

/-! ## Sets -/

/-- `std::unordered_set` filled from `l`. -/
def unorderedSet [DecidableEq α] (l : List α) : List α := l.dedup

section

variable [DecidableEq α]

@[simp] theorem mem_unorderedSet {l : List α} {a : α} : a ∈ unorderedSet l ↔ a ∈ l :=
  List.mem_dedup

theorem nodup_unorderedSet (l : List α) : (unorderedSet l).Nodup := List.nodup_dedup l

end

/-! ## Maps -/

/-- `std::unordered_map<κ, ν>`: the entries, no key twice. -/
structure UnorderedMap (κ ν : Type*) where
  entries : List (κ × ν)
  nodup : (entries.map Prod.fst).Nodup

namespace UnorderedMap

/-- The empty map. -/
def empty : UnorderedMap κ ν := ⟨[], List.nodup_nil⟩

instance : Inhabited (UnorderedMap κ ν) := ⟨empty⟩

@[simp] theorem entries_empty : (empty : UnorderedMap κ ν).entries = [] := rfl

/-- With distinct keys, two entries under one key are one entry. -/
theorem value_unique (m : UnorderedMap κ ν) {k : κ} {v w : ν} (hv : (k, v) ∈ m.entries)
    (hw : (k, w) ∈ m.entries) : v = w := by
  have := List.inj_on_of_nodup_map m.nodup hv hw rfl
  exact (Prod.mk.inj this).2

variable [DecidableEq κ]

/-- `find`: the value under `k`, if there is one. -/
def find? (m : UnorderedMap κ ν) (k : κ) : Option ν :=
  (m.entries.find? (fun e => e.1 = k)).map Prod.snd

theorem find?_eq_some_iff (m : UnorderedMap κ ν) {k : κ} {v : ν} :
    m.find? k = some v ↔ (k, v) ∈ m.entries := by
  constructor
  · intro h
    obtain ⟨e, he, rfl⟩ := Option.map_eq_some_iff.mp h
    have hk : e.1 = k := by simpa using List.find?_some he
    exact hk ▸ List.mem_of_find?_eq_some he
  · intro h
    cases he : m.entries.find? (fun e => e.1 = k) with
    | none =>
        rw [List.find?_eq_none] at he
        exact absurd (by simp) (he (k, v) h)
    | some e =>
        have hk : e.1 = k := by simpa using List.find?_some he
        have hmem : (k, e.2) ∈ m.entries := hk ▸ List.mem_of_find?_eq_some he
        simp [find?, he, m.value_unique hmem h]

theorem find?_eq_none_iff (m : UnorderedMap κ ν) {k : κ} :
    m.find? k = none ↔ k ∉ m.entries.map Prod.fst := by
  rw [← not_iff_not, not_not, ← ne_eq, Option.ne_none_iff_exists']
  simp only [find?_eq_some_iff, List.mem_map]
  constructor
  · rintro ⟨v, hv⟩; exact ⟨(k, v), hv, rfl⟩
  · rintro ⟨⟨_, v⟩, hv, rfl⟩; exact ⟨v, hv⟩

/-- `insert(make_pair(k, v))`: nothing happens if `k` is present. -/
def insert (m : UnorderedMap κ ν) (k : κ) (v : ν) : UnorderedMap κ ν :=
  if h : k ∈ m.entries.map Prod.fst then m
  else ⟨m.entries ++ [(k, v)], by
    simp only [List.map_append, List.map_cons, List.map_nil]
    exact List.Nodup.append m.nodup (List.nodup_singleton k)
      (by simpa [List.disjoint_singleton] using h)⟩

theorem entries_insert_of_none (m : UnorderedMap κ ν) {k : κ} (v : ν) (h : m.find? k = none) :
    (m.insert k v).entries = m.entries ++ [(k, v)] := by
  rw [insert, dif_neg (m.find?_eq_none_iff.mp h)]

theorem insert_of_some (m : UnorderedMap κ ν) {k : κ} {w : ν} (v : ν) (h : m.find? k = some w) :
    m.insert k v = m := by
  rw [insert, dif_pos (List.mem_map.mpr ⟨(k, w), m.find?_eq_some_iff.mp h, rfl⟩)]

theorem length_insert_le (m : UnorderedMap κ ν) (k : κ) (v : ν) :
    (m.insert k v).entries.length ≤ m.entries.length + 1 := by
  unfold insert
  split <;> simp

/-- `it->second` changed in place under the key `k`. -/
def update (m : UnorderedMap κ ν) (k : κ) (f : ν → ν) : UnorderedMap κ ν :=
  ⟨m.entries.map (fun e => if e.1 = k then (e.1, f e.2) else e), by
    have hfst : (m.entries.map (fun e => if e.1 = k then (e.1, f e.2) else e)).map Prod.fst
        = m.entries.map Prod.fst := by
      rw [List.map_map]
      apply List.map_congr_left
      intro e _
      by_cases h : e.1 = k <;> simp [h]
    rw [hfst]; exact m.nodup⟩

theorem mem_entries_insert (m : UnorderedMap κ ν) {k : κ} {v : ν} {e : κ × ν} :
    e ∈ (m.insert k v).entries ↔ e ∈ m.entries ∨ (m.find? k = none ∧ e = (k, v)) := by
  cases h : m.find? k with
  | none => simp [m.entries_insert_of_none v h]
  | some w => simp [m.insert_of_some v h]

theorem key_mem_insert (m : UnorderedMap κ ν) (k : κ) (v : ν) :
    k ∈ (m.insert k v).entries.map Prod.fst := by
  unfold insert
  split
  · next h => exact h
  · simp

@[simp] theorem entries_update (m : UnorderedMap κ ν) (k : κ) (f : ν → ν) :
    (m.update k f).entries = m.entries.map (fun e => if e.1 = k then (e.1, f e.2) else e) := rfl

/-- `m[k] = v`. -/
def assign (m : UnorderedMap κ ν) (k : κ) (v : ν) : UnorderedMap κ ν :=
  match m.find? k with
  | none => m.insert k v
  | some _ => m.update k fun _ => v

/-- `erase(k)`. -/
def erase (m : UnorderedMap κ ν) (k : κ) : UnorderedMap κ ν :=
  ⟨m.entries.filter (fun e => e.1 ≠ k), m.nodup.sublist (List.filter_sublist.map _)⟩

@[simp] theorem entries_erase (m : UnorderedMap κ ν) (k : κ) :
    (m.erase k).entries = m.entries.filter (fun e => e.1 ≠ k) := rfl

theorem entries_assign_of_none (m : UnorderedMap κ ν) {k : κ} (v : ν) (h : m.find? k = none) :
    (m.assign k v).entries = m.entries ++ [(k, v)] := by
  rw [assign, h]
  exact m.entries_insert_of_none v h

theorem entries_assign_of_some (m : UnorderedMap κ ν) {k : κ} {w : ν} (v : ν)
    (h : m.find? k = some w) :
    (m.assign k v).entries = m.entries.map fun e => if e.1 = k then (e.1, v) else e := by
  rw [assign, h]
  rfl

theorem find?_assign (m : UnorderedMap κ ν) (k k' : κ) (v : ν) :
    (m.assign k v).find? k' = if k' = k then some v else m.find? k' := by
  by_cases hk : k' = k
  · subst hk
    rw [if_pos rfl, find?_eq_some_iff]
    cases h : m.find? k' with
    | none => simp [m.entries_assign_of_none v h]
    | some w =>
        rw [m.entries_assign_of_some v h]
        exact List.mem_map.mpr ⟨(k', w), m.find?_eq_some_iff.mp h, by simp⟩
  · rw [if_neg hk]
    refine Option.ext fun x => ?_
    rw [find?_eq_some_iff, find?_eq_some_iff]
    cases h : m.find? k with
    | none => simp [m.entries_assign_of_none v h, hk]
    | some w =>
        rw [m.entries_assign_of_some v h, List.mem_map]
        constructor
        · intro hmem
          obtain ⟨e, he, heq⟩ := hmem
          by_cases hek : e.1 = k
          · rw [if_pos hek] at heq
            have hkey : e.1 = k' := congrArg Prod.fst heq
            exact absurd (hkey.symm.trans hek) hk
          · rw [if_neg hek] at heq
            exact heq ▸ he
        · intro he
          exact ⟨(k', x), he, if_neg hk⟩

/-- Appending to the list under a key appends to all the lists together. -/
theorem flatMap_update_perm (m : UnorderedMap κ (List α)) {k : κ}
    (hk : k ∈ m.entries.map Prod.fst) (xs : List α) :
    ((m.update k (· ++ xs)).entries.flatMap Prod.snd).Perm (m.entries.flatMap Prod.snd ++ xs) := by
  obtain ⟨l, hn⟩ := m
  simp only [entries_update] at hk ⊢
  induction l with
  | nil => simp at hk
  | cons e l ih =>
      rw [List.map_cons, List.nodup_cons] at hn
      by_cases he : e.1 = k
      · have hrest : l.map (fun e => if e.1 = k then (e.1, e.2 ++ xs) else e) = l := by
          refine (List.map_congr_left fun e' he' => ?_).trans l.map_id
          have hne : e'.1 ≠ k := fun h => hn.1 (he ▸ h ▸ List.mem_map.mpr ⟨e', he', rfl⟩)
          rw [if_neg hne]; rfl
        rw [List.map_cons, if_pos he, hrest, List.flatMap_cons, List.flatMap_cons,
          List.append_assoc, List.append_assoc]
        exact List.Perm.append_left _ List.perm_append_comm
      · have hk' : k ∈ l.map Prod.fst := by
          rw [List.map_cons, List.mem_cons] at hk
          exact hk.resolve_left (Ne.symm he)
        rw [List.map_cons, if_neg he, List.flatMap_cons, List.flatMap_cons, List.append_assoc]
        exact List.Perm.append_left _ (ih hn.2 hk')

/-- An assignment adds at most the weight of the new value. -/
theorem sum_assign_le (m : UnorderedMap κ ν) (k : κ) (v : ν) (weight : ν → Nat) :
    ((m.assign k v).entries.map fun e => weight e.2).sum
      ≤ (m.entries.map fun e => weight e.2).sum + weight v := by
  cases h : m.find? k with
  | none => simp [m.entries_assign_of_none v h]
  | some w =>
      rw [m.entries_assign_of_some v h, List.map_map]
      obtain ⟨l, hn⟩ := m
      simp only
      clear h
      induction l with
      | nil => simp
      | cons e l ih =>
          rw [List.map_cons, List.nodup_cons] at hn
          by_cases he : e.1 = k
          · have hrest : l.map ((fun e => weight e.2) ∘ fun e => if e.1 = k then (e.1, v) else e)
                = l.map fun e => weight e.2 := by
              refine List.map_congr_left fun e' he' => ?_
              have hne : e'.1 ≠ k := fun h => hn.1 (he ▸ h ▸ List.mem_map.mpr ⟨e', he', rfl⟩)
              simp [hne]
            rw [List.map_cons, hrest]
            simp [he]
            omega
          · have hrest := ih hn.2
            simp only [List.map_cons, List.sum_cons, Function.comp_apply, if_neg he] at hrest ⊢
            omega

end UnorderedMap

/-- `std::map`, where the order of its walks is not observed. -/
abbrev StdMap (κ ν : Type*) := UnorderedMap κ ν

/-! ## Multimaps from values to positions -/

/-- The indices at which `h` occurs in `l`, ascending. -/
def positions [DecidableEq α] (l : List α) (h : α) : List Nat :=
  (List.range l.length).filter (fun i => l[i]? = some h)

theorem mem_positions [DecidableEq α] {l : List α} {h : α} {i : Nat} :
    i ∈ positions l h ↔ l[i]? = some h := by
  simp only [positions, List.mem_filter, List.mem_range, decide_eq_true_eq, and_iff_right_iff_imp]
  intro hi
  exact (List.getElem?_eq_some_iff.mp hi).1

/-- `std::unordered_multimap` holding `(l[i], i)` for every `i`:
`equal_range(h)` yields the positions of `h` in some order. -/
structure EqualRange (α : Type*) [DecidableEq α] where
  range : List α → α → List Nat
  perm : ∀ l h, (range l h).Perm (positions l h)

instance [DecidableEq α] : Inhabited (EqualRange α) := ⟨⟨positions, fun _ _ => .refl _⟩⟩

theorem EqualRange.mem_range [DecidableEq α] (er : EqualRange α) {l : List α} {h : α} {i : Nat} :
    i ∈ er.range l h ↔ l[i]? = some h :=
  (er.perm l h).mem_iff.trans mem_positions

theorem EqualRange.nodup_range [DecidableEq α] (er : EqualRange α) (l : List α) (h : α) :
    (er.range l h).Nodup :=
  (er.perm l h).nodup_iff.mpr (List.nodup_range.filter _)

/-- `count(h)` of the multimap. -/
def EqualRange.count [DecidableEq α] (er : EqualRange α) (l : List α) (h : α) : Nat :=
  (er.range l h).length

end VideoMatch.Cxx
