/-
VideoMatch.Machine.Service — services and what they are for.

A service answers requests one after another: `serve s q` is the reply and
the next state, and `none` if the service breaks. A purpose says the same in
terms of its own: when a request may come, which replies are right, and how
the abstract state goes on. It does not say which of the right replies is
given.

`Fulfils rel` is one request. `Fulfils.serveAll` is any number of them: the
service does not break, every reply is right where it is given, and in the
end it stands for the state the requests alone lead to.
-/
import Mathlib

namespace VideoMatch.Machine

/-- A step function with replies. -/
structure Service (S Q R : Type*) where
  serve : S → Q → Option (R × S)

/-- What a service is for. -/
structure Purpose (A Q R : Type*) where
  allowed : A → Q → Prop
  right : A → Q → R → Prop
  after : A → Q → A

variable {S A Q R : Type*}

namespace Service

/-- The replies to the requests in order, and the state after the last. -/
def serveAll (sv : Service S Q R) : S → List Q → Option (List R × S)
  | s, [] => some ([], s)
  | s, q :: qs => do
      let (r, s) ← sv.serve s q
      let (rs, s) ← serveAll sv s qs
      some (r :: rs, s)

end Service

namespace Purpose

variable (p : Purpose A Q R)

/-- Each request may come when it comes. -/
def AllowedAll : A → List Q → Prop
  | _, [] => True
  | a, q :: qs => p.allowed a q ∧ AllowedAll (p.after a q) qs

/-- Each reply is right where it is given. -/
def RightAll : A → List Q → List R → Prop
  | _, [], [] => True
  | a, q :: qs, r :: rs => p.right a q r ∧ RightAll (p.after a q) qs rs
  | _, _, _ => False

/-- Where the requests lead. -/
def afterAll (a : A) (qs : List Q) : A := qs.foldl p.after a

variable {p}

theorem allowedAll_append {qs qs' : List Q} : ∀ {a : A},
    p.AllowedAll a (qs ++ qs') ↔ p.AllowedAll a qs ∧ p.AllowedAll (p.afterAll a qs) qs' := by
  induction qs with
  | nil => intro a; simp [AllowedAll, afterAll]
  | cons q qs ih =>
      intro a
      rw [List.cons_append, AllowedAll, AllowedAll, ih, and_assoc]
      rfl

/-- The right replies to the first requests, and then to the others. -/
theorem rightAll_append {qs qs' : List Q} : ∀ {a : A} {rs : List R}, p.RightAll a (qs ++ qs') rs →
    ∃ rs₁ rs₂, rs = rs₁ ++ rs₂ ∧ rs₁.length = qs.length ∧ p.RightAll a qs rs₁ ∧
      p.RightAll (p.afterAll a qs) qs' rs₂ := by
  induction qs with
  | nil => exact fun {_} {rs} h => ⟨[], rs, rfl, rfl, trivial, h⟩
  | cons q qs ih =>
      intro a rs h
      cases rs with
      | nil => exact h.elim
      | cons r rs =>
          obtain ⟨hright, hrest⟩ := h
          obtain ⟨rs₁, rs₂, rfl, hlen, h₁, h₂⟩ := ih hrest
          exact ⟨r :: rs₁, rs₂, rfl, congrArg Nat.succ hlen, ⟨hright, h₁⟩, h₂⟩

/-- One request has one reply. -/
theorem rightAll_singleton {a : A} {q : Q} {rs : List R} (h : p.RightAll a [q] rs) :
    ∃ r, rs = [r] ∧ p.right a q r := by
  rcases rs with _ | ⟨r, _ | ⟨r', rs⟩⟩
  · exact h.elim
  · exact ⟨r, rfl, h.1⟩
  · exact h.2.elim

/-- What each of the requests keeps holds after all of them. -/
theorem afterAll_keeps {P : A → Prop} {qs : List Q} :
    (∀ a, ∀ q ∈ qs, P a → P (p.after a q)) → ∀ {a : A}, P a → P (p.afterAll a qs) := by
  induction qs with
  | nil => exact fun _ {_} ha => ha
  | cons q qs ih =>
      intro hstep a ha
      exact ih (fun a q' hq' => hstep a q' (List.mem_cons_of_mem _ hq'))
        (hstep a q List.mem_cons_self ha)

end Purpose

/-- From related states a request that may come is answered, the reply is
right, and the next states are related. -/
def Fulfils (sv : Service S Q R) (p : Purpose A Q R) (rel : S → A → Prop) : Prop :=
  ∀ s a q, rel s a → p.allowed a q →
    ∃ r s', sv.serve s q = some (r, s') ∧ p.right a q r ∧ rel s' (p.after a q)

/-- All requests are answered. -/
theorem Fulfils.serveAll {sv : Service S Q R} {p : Purpose A Q R} {rel : S → A → Prop}
    (h : Fulfils sv p rel) {qs : List Q} : ∀ {s : S} {a : A}, rel s a → p.AllowedAll a qs →
    ∃ rs s', sv.serveAll s qs = some (rs, s') ∧ p.RightAll a qs rs ∧ rel s' (p.afterAll a qs) := by
  induction qs with
  | nil => exact fun {s} {a} hrel _ => ⟨[], s, rfl, trivial, hrel⟩
  | cons q qs ih =>
      intro s a hrel hallowed
      obtain ⟨r, s₁, hserve, hright, hrel₁⟩ := h s a q hrel hallowed.1
      obtain ⟨rs, s₂, hall, hrights, hrel₂⟩ := ih hrel₁ hallowed.2
      refine ⟨r :: rs, s₂, ?_, ⟨hright, hrights⟩, hrel₂⟩
      simp only [Service.serveAll, hserve, hall, Option.bind_eq_bind, Option.bind_some]

end VideoMatch.Machine
