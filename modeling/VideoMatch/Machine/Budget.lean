/-
VideoMatch.Machine.Budget — systems that come to rest.

Some events come from outside, and all others use up work. What has come in
is counted in two ways: by the state itself (`credit`), or by events that
are marked. If every step is paid for, a run is no longer than what has come
in allows (`length_le_of_paid`). And a system that is left alone gets to a
state in which nothing can happen any more (`exists_rest`).
-/
import VideoMatch.Machine.Transition

namespace VideoMatch.Machine

namespace System

variable {S E : Type*} (sys : System S E)

/-- How many events of a run are marked. -/
def marked (mark : S → E → Bool) : S → List E → Nat
  | _, [] => 0
  | s, e :: es => (mark s e).toNat + ((sys.step s e).map fun t => marked mark t es).getD 0

/-- Only events from outside can happen. -/
def Rests (outside : S → E → Bool) (s : S) : Prop :=
  ∀ e s', sys.step s e = some s' → outside s e = true

/-- The system without the events from outside. -/
def alone (outside : S → E → Bool) : System S E :=
  ⟨sys.init, fun s e => if outside s e then none else sys.step s e⟩

variable {sys} {P : S → Prop}

theorem run_cons {s s' : S} {e : E} {es : List E} :
    sys.run s (e :: es) = some s' ↔ ∃ t, sys.step s e = some t ∧ sys.run t es = some s' := by
  rw [run, List.foldlM_cons]
  exact Option.bind_eq_some_iff

/-- Each step costs one unit of work, and a marked one brings `c`. -/
theorem length_le_of_paid (work credit : S → Nat) (mark : S → E → Bool) {c : Nat}
    (hkeeps : ∀ s e s', P s → sys.step s e = some s' → P s')
    (hpaid : ∀ s e s', P s → sys.step s e = some s' →
      work s' + credit s + 1 ≤ work s + credit s' + c * (mark s e).toNat) :
    ∀ (es : List E) {s s' : S}, P s → sys.run s es = some s' →
      work s' + credit s + es.length ≤ work s + credit s' + c * sys.marked mark s es := by
  intro es
  induction es with
  | nil =>
      intro s s' _ h
      simp only [run, List.foldlM_nil, Option.pure_def, Option.some.injEq] at h
      subst h
      exact Nat.le_add_right _ _
  | cons e es ih =>
      intro s s' hs h
      obtain ⟨t, ht, h⟩ := run_cons.mp h
      have hstep := hpaid s e t hs ht
      have hrest := ih (hkeeps s e t hs ht) h
      rw [marked, ht, Option.map_some, Option.getD_some, List.length_cons, mul_add]
      omega

/-- Left alone, the system comes to rest. -/
theorem exists_rest (work : S → Nat) {outside : S → E → Bool}
    (hkeeps : ∀ s e s', P s → sys.step s e = some s' → outside s e = false → P s')
    (hworks : ∀ s e s', P s → sys.step s e = some s' → outside s e = false → work s' < work s)
    {s : S} (hs : P s) :
    ∃ es s', (sys.alone outside).run s es = some s' ∧ P s' ∧ sys.Rests outside s' := by
  induction hn : work s using Nat.strong_induction_on generalizing s with
  | _ n ih =>
      by_cases hrest : sys.Rests outside s
      · exact ⟨[], s, rfl, hs, hrest⟩
      · obtain ⟨e, t, ht, hinside⟩ : ∃ e t, sys.step s e = some t ∧ outside s e = false := by
          simpa [Rests] using hrest
        have hless := hworks s e t hs ht hinside
        obtain ⟨es, s', hrun, hs', hrest'⟩ := ih (work t) (hn ▸ hless)
          (hkeeps s e t hs ht hinside) rfl
        have hstep : (sys.alone outside).step s e = some t := by simp [alone, hinside, ht]
        exact ⟨e :: es, s', run_cons.mpr ⟨t, hstep, hrun⟩, hs', hrest'⟩

end System

end VideoMatch.Machine
