/-
VideoMatch.Cxx.Traced — computations with a record of their accesses.

`xs[i]` of a `std::vector` does not compare `i` with the size. A
`Traced α` is a fallible computation together with the accesses it makes,
each as the index and the size of the vector. The access that faults is
the last one on the record. `value` is the computation without its
record.

`InBounds` says that every access on the record is inside its vector. The
rules take a computation apart: what holds of `m >>= f` is what holds of
`m` and, if `m` has a value, of `f` at that value.
-/
import VideoMatch.Cxx.Loops

namespace VideoMatch.Cxx

universe u

structure Traced (α : Type u) where
  value : Option α
  accesses : List (Nat × Nat)

namespace Traced

variable {α β : Type u}

instance : Monad Traced where
  pure a := ⟨some a, []⟩
  bind m f :=
    match m.value with
    | none => ⟨none, m.accesses⟩
    | some a => ⟨(f a).value, m.accesses ++ (f a).accesses⟩

/-- A step without accesses. -/
def ofOption (a : Option α) : Traced α := ⟨a, []⟩

/-- `xs[i]`. -/
def index (xs : List α) (i : Nat) : Traced α := ⟨xs[i]?, [(i, xs.length)]⟩

/-- `xs[i]`, which was `a`, another `n` times. -/
def again (xs : List α) (i n : Nat) (a : α) : Traced α :=
  (List.range n).foldlM (fun _ _ => index xs i) a

/-! ## Without the record -/

@[simp] theorem value_pure (a : α) : (pure a : Traced α).value = some a := rfl

@[simp] theorem value_bind (m : Traced α) (f : α → Traced β) :
    (m >>= f).value = m.value.bind fun a => (f a).value := by
  obtain ⟨value, accesses⟩ := m
  cases value <;> rfl

@[simp] theorem value_ofOption (a : Option α) : (ofOption a).value = a := rfl

@[simp] theorem value_index (xs : List α) (i : Nat) : (index xs i).value = xs[i]? := rfl

@[simp] theorem value_ite (p : Prop) [Decidable p] (m m' : Traced α) :
    (if p then m else m').value = if p then m.value else m'.value := apply_ite value p m m'

theorem value_foldlM {σ : Type u} {ι : Type*} (f : σ → ι → Traced σ) :
    ∀ (xs : List ι) (s : σ), (xs.foldlM f s).value = xs.foldlM (fun s x => (f s x).value) s := by
  intro xs
  induction xs with
  | nil => intro s; rfl
  | cons x xs ih =>
      intro s
      rw [List.foldlM_cons, List.foldlM_cons, value_bind, Option.bind_eq_bind]
      exact Option.bind_congr fun t _ => ih t

theorem value_again {xs : List α} {i : Nat} {a : α} (h : xs[i]? = some a) (n : Nat) :
    (again xs i n a).value = some a := by
  rw [again, value_foldlM]
  simp only [value_index, h]
  induction List.range n with
  | nil => rfl
  | cons k ks ih => exact ih

/-! ## Accesses in bounds -/

/-- Every access is inside its vector. -/
def InBounds (m : Traced α) : Prop := ∀ r ∈ m.accesses, r.1 < r.2

@[simp] theorem inBounds_pure (a : α) : InBounds (pure a : Traced α) := by
  intro r hr
  cases hr

@[simp] theorem inBounds_ofOption (a : Option α) : InBounds (ofOption a) := by
  intro r hr
  cases hr

@[simp] theorem inBounds_index (xs : List α) (i : Nat) : InBounds (index xs i) ↔ i < xs.length := by
  simp [InBounds, index]

theorem inBounds_bind (m : Traced α) (f : α → Traced β) :
    InBounds (m >>= f) ↔ InBounds m ∧ ∀ a, m.value = some a → InBounds (f a) := by
  obtain ⟨value, accesses⟩ := m
  cases value with
  | none => simp [InBounds, bind]
  | some a => simp [InBounds, bind, or_imp, forall_and]

/-- An access inside its vector leaves the rest to be checked. -/
theorem inBounds_index_bind {xs : List α} {i : Nat} {a : α} (h : xs[i]? = some a)
    (f : α → Traced β) : InBounds (index xs i >>= f) ↔ InBounds (f a) := by
  have hlt : i < xs.length := (List.getElem?_eq_some_iff.mp h).1
  rw [inBounds_bind, inBounds_index, value_index, h]
  simp [hlt]

/-- A loop all of whose iterations stay inside. -/
theorem inBounds_foldlM {σ : Type u} {ι : Type*} {f : σ → ι → Traced σ}
    (h : ∀ s x, InBounds (f s x)) : ∀ (xs : List ι) (s : σ), InBounds (xs.foldlM f s) := by
  intro xs
  induction xs with
  | nil => intro s; exact inBounds_pure s
  | cons x xs ih =>
      intro s
      rw [List.foldlM_cons, inBounds_bind]
      exact ⟨h s x, fun t _ => ih t⟩

theorem inBounds_again {xs : List α} {i : Nat} (h : i < xs.length) (n : Nat) (a : α) :
    InBounds (again xs i n a) :=
  inBounds_foldlM (fun _ _ => (inBounds_index xs i).mpr h) (List.range n) a

end Traced

end VideoMatch.Cxx
