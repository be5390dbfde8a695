/-
VideoMatch.Machine.Transition — guarded transition systems and their runs.

A system has a set of initial states and a step function: `step s e` is
`some s'` when the event `e` can happen in `s`, and `none` when it
cannot. Choices the program does not control (an outcome of a system
call, the order of a walk, which thread moves) are part of the event, so
the step function stays executable and a run is a list of events.

`RunsUnder ok` collects the states reached by runs whose every step
meets the guard `ok`; plain reachability is the case without a guard. An
invariant is proved once per step (`RunsUnder.invariant`), and a concrete
run is replayed by evaluation (`reachable_of_run`).
-/
import Mathlib

namespace VideoMatch.Machine

/-- Initial states and a guarded step function. -/
structure System (S E : Type*) where
  init : S → Prop
  step : S → E → Option S

namespace System

variable {S E : Type*} (sys : System S E)

/-- The states reached by runs whose steps all meet `ok`. -/
inductive RunsUnder (ok : S → E → Prop) : S → Prop
  | init {s : S} : sys.init s → RunsUnder ok s
  | step {s s' : S} {e : E} : RunsUnder ok s → ok s e → sys.step s e = some s' →
      RunsUnder ok s'

/-- The states reached by any run. -/
def Reachable : S → Prop := sys.RunsUnder (fun _ _ => True)

/-- The run that performs the events in order. -/
def run (s : S) (es : List E) : Option S := es.foldlM sys.step s

variable {sys}

/-- A predicate that holds initially and is kept by every step that meets
the guard holds in every state of a guarded run. -/
theorem RunsUnder.invariant {ok : S → E → Prop} {P : S → Prop}
    (hinit : ∀ s, sys.init s → P s)
    (hstep : ∀ s e s', P s → ok s e → sys.step s e = some s' → P s') {s : S}
    (h : sys.RunsUnder ok s) : P s := by
  induction h with
  | init h0 => exact hinit _ h0
  | step _ hok hs ih => exact hstep _ _ _ ih hok hs

/-- The unguarded rule. -/
theorem Reachable.invariant {P : S → Prop} (hinit : ∀ s, sys.init s → P s)
    (hstep : ∀ s e s', P s → sys.step s e = some s' → P s') {s : S}
    (h : sys.Reachable s) : P s :=
  RunsUnder.invariant hinit (fun s e s' hP _ => hstep s e s' hP) h

/-- The rule for a run from a given state. -/
theorem run_invariant {P : S → Prop} (hstep : ∀ s e s', P s → sys.step s e = some s' → P s') :
    ∀ (es : List E) {s s' : S}, P s → sys.run s es = some s' → P s' := by
  intro es
  induction es with
  | nil =>
      intro s s' hs h
      simp only [run, List.foldlM_nil, Option.pure_def, Option.some.injEq] at h
      exact h ▸ hs
  | cons e es ih =>
      intro s s' hs h
      simp only [run, List.foldlM_cons, Option.bind_eq_bind, Option.bind_eq_some_iff] at h
      obtain ⟨t, ht, h⟩ := h
      exact ih (hstep s e t hs ht) h

/-- A concrete run ends in a reachable state. -/
theorem reachable_of_run : ∀ (es : List E) {s s' : S}, sys.Reachable s →
    sys.run s es = some s' → sys.Reachable s' := by
  intro es
  induction es with
  | nil =>
      intro s s' hs h
      simp only [run, List.foldlM_nil, Option.pure_def, Option.some.injEq] at h
      exact h ▸ hs
  | cons e es ih =>
      intro s s' hs h
      simp only [run, List.foldlM_cons, Option.bind_eq_bind, Option.bind_eq_some_iff] at h
      obtain ⟨t, ht, h⟩ := h
      exact ih (RunsUnder.step hs trivial ht) h

end System

end VideoMatch.Machine
