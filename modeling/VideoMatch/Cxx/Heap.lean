/-
VideoMatch.Cxx.Heap — objects made by `new`, reached by pointer.

A heap maps addresses to the objects that live there. `alloc` returns an
address no object has had before, `free` is `delete`, and reading an
address without an object is `none`: a dangling pointer is a fault of
the program and never reads as some other object.

`Heap` carries its one invariant, that nothing lives at or past the next
address to hand out. So an allocation cannot overwrite an object, and
the frame lemmas need no side condition about it.
-/
import Mathlib

namespace VideoMatch.Cxx

/-- The live objects of type `α`, by address. -/
@[ext] structure Heap (α : Type*) where
  cell : Nat → Option α
  next : Nat
  fresh : ∀ p, next ≤ p → cell p = none

namespace Heap

variable {α : Type*}

/-- No object has been allocated. -/
def empty : Heap α := ⟨fun _ => none, 0, fun _ _ => rfl⟩

instance : Inhabited (Heap α) := ⟨empty⟩

/-- Dereference; `none` is a dangling pointer. -/
def read (h : Heap α) (p : Nat) : Option α := h.cell p

/-- `new α(a)`. -/
def alloc (h : Heap α) (a : α) : Heap α × Nat :=
  (⟨Function.update h.cell h.next (some a), h.next + 1, fun p hp => by
      rw [Function.update_of_ne (by omega)]; exact h.fresh p (by omega)⟩, h.next)

/-- Change the object at `p`, if there is one. -/
def modify (h : Heap α) (p : Nat) (f : α → α) : Heap α :=
  ⟨Function.update h.cell p ((h.cell p).map f), h.next, fun q hq => by
      by_cases hqp : q = p
      · subst hqp; simp [h.fresh q hq]
      · rw [Function.update_of_ne hqp]; exact h.fresh q hq⟩

/-- `delete p`. -/
def free (h : Heap α) (p : Nat) : Heap α :=
  ⟨Function.update h.cell p none, h.next, fun q hq => by
      by_cases hqp : q = p
      · subst hqp; simp
      · rw [Function.update_of_ne hqp]; exact h.fresh q hq⟩

/-- `p->field = …`: the object at `p` changed, a fault without one. -/
def store (h : Heap α) (p : Nat) (f : α → α) : Option (Heap α) :=
  (h.read p).map fun _ => h.modify p f

/-- `if (p) p->field = …`. -/
def storeIf (h : Heap α) (p : Option Nat) (f : α → α) : Option (Heap α) :=
  match p with
  | none => some h
  | some p => h.store p f

/-! ## Reads -/

/-- Two heaps that read alike are the same heap. -/
theorem ext_read {h h' : Heap α} (hread : ∀ p, h.read p = h'.read p) (hnext : h.next = h'.next) :
    h = h' := Heap.ext (funext hread) hnext

theorem lt_next_of_read {h : Heap α} {p : Nat} {a : α} (hp : h.read p = some a) :
    p < h.next := by
  by_contra hge
  have := h.fresh p (by omega)
  rw [read, this] at hp
  cases hp

@[simp] theorem alloc_snd (h : Heap α) (a : α) : (h.alloc a).2 = h.next := rfl

@[simp] theorem read_alloc_self (h : Heap α) (a : α) : (h.alloc a).1.read h.next = some a := by
  simp [read, alloc]

theorem read_alloc_of_read {h : Heap α} {p : Nat} {b : α} (a : α) (hp : h.read p = some b) :
    (h.alloc a).1.read p = some b := by
  have hlt := lt_next_of_read hp
  simpa [read, alloc, Function.update_of_ne (Nat.ne_of_lt hlt)] using hp

@[simp] theorem read_modify_self (h : Heap α) (p : Nat) (f : α → α) :
    (h.modify p f).read p = (h.read p).map f := by
  simp [read, modify]

theorem read_modify_of_ne (h : Heap α) {p q : Nat} (f : α → α) (hne : q ≠ p) :
    (h.modify p f).read q = h.read q := by
  simp [read, modify, Function.update_of_ne hne]

/-- Whatever `f` leaves alone can be read through a change. -/
theorem map_read_modify {β : Type*} (h : Heap α) (p q : Nat) (f : α → α) (g : α → β)
    (hg : ∀ a, g (f a) = g a) : ((h.modify p f).read q).map g = (h.read q).map g := by
  by_cases hne : q = p
  · subst hne
    cases hq : h.read q <;> simp [hq, hg]
  · rw [read_modify_of_ne h f hne]

@[simp] theorem read_free_self (h : Heap α) (p : Nat) : (h.free p).read p = none := by
  simp [read, free]

theorem read_free_of_ne (h : Heap α) {p q : Nat} (hne : q ≠ p) : (h.free p).read q = h.read q := by
  simp [read, free, Function.update_of_ne hne]

theorem read_alloc_of_ne (h : Heap α) (a : α) {p : Nat} (hne : p ≠ h.next) :
    (h.alloc a).1.read p = h.read p := by
  simp [read, alloc, Function.update_of_ne hne]

theorem store_eq {h : Heap α} {p : Nat} {a : α} (hp : h.read p = some a) (f : α → α) :
    h.store p f = some (h.modify p f) := by
  rw [store, hp]
  rfl

end Heap

end VideoMatch.Cxx
