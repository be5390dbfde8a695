/-
VideoMatch.Machine.Moments — requests that overlap and take effect one after
the other.

Each request takes effect at a moment between its arrival and its reply. The
log has the requests in the order of their moments, and a moment is a
position in the log. A request that was answered keeps the length of the log
at its arrival and at its reply, so the order of the log is one that the
clients can have seen. `InOrder` says that each reply is right at the moment
of its request, that no moment is used twice, and that the log has nothing
else.
-/
import VideoMatch.Machine.Service

namespace VideoMatch.Machine

variable {ι A Q R : Type*}

/-- A request that was answered. -/
structure Served (Q R : Type*) where
  request : Q
  reply : R
  /-- the length of the log at the arrival -/
  arrived : Nat
  moment : Nat
  /-- the length of the log at the reply -/
  replied : Nat

/-- The reply is right at the moment, and the moment is in time. -/
structure Served.RightIn (p : Purpose A Q R) (a : A) (log : List Q) (d : Served Q R) : Prop where
  arrived : d.arrived ≤ d.moment
  replied : d.moment < d.replied ∧ d.replied ≤ log.length
  logged : log[d.moment]? = some d.request
  right : p.right (p.afterAll a (log.take d.moment)) d.request d.reply

/-- What holds of the log, of the moments of the requests that have taken
effect and wait for their replies, and of the answered requests. -/
structure InOrder [DecidableEq ι] (p : Purpose A Q R) (a : A) (log : List Q)
    (pending : ι → Option Nat) (done : List (Served Q R)) : Prop where
  bounded : ∀ i, ∀ j ∈ pending i, j < log.length
  apart : ∀ i i' j, j ∈ pending i → j ∈ pending i' → i = i'
  unserved : ∀ i, ∀ j ∈ pending i, ∀ d ∈ done, d.moment ≠ j
  once : (done.map Served.moment).Nodup
  served : ∀ d ∈ done, d.RightIn p a log
  nothingElse : ∀ j < log.length, (∃ i, j ∈ pending i) ∨ ∃ d ∈ done, d.moment = j

/-- A longer log does not change what was before. -/
theorem Served.RightIn.mono {p : Purpose A Q R} {a : A} {log : List Q} {d : Served Q R}
    (h : d.RightIn p a log) (q : Q) : d.RightIn p a (log ++ [q]) := by
  have hlt : d.moment < log.length := h.replied.1.trans_le h.replied.2
  refine ⟨h.arrived, ⟨h.replied.1, ?_⟩, ?_, ?_⟩
  · rw [List.length_append]
    exact Nat.le_add_right_of_le h.replied.2
  · rw [List.getElem?_append_left hlt]
    exact h.logged
  · rw [List.take_append_of_le_length hlt.le]
    exact h.right

namespace InOrder

variable [DecidableEq ι] {p : Purpose A Q R} {a : A} {log : List Q} {pending : ι → Option Nat}
  {done : List (Served Q R)}

theorem start (p : Purpose A Q R) (a : A) :
    InOrder p a [] (fun _ : ι => none) ([] : List (Served Q R)) :=
  ⟨by simp, by simp, by simp, List.nodup_nil, by simp, by simp⟩

/-- A request takes effect. -/
theorem effect (h : InOrder p a log pending done) {i : ι} (hi : pending i = none) (q : Q) :
    InOrder p a (log ++ [q]) (Function.update pending i (some log.length)) done := by
  have hcases : ∀ i' j, j ∈ Function.update pending i (some log.length) i' →
      i' = i ∧ j = log.length ∨ i' ≠ i ∧ j ∈ pending i' := by
    intro i' j hj
    by_cases hi : i' = i
    · subst hi
      rw [Function.update_self, Option.mem_some_iff] at hj
      exact .inl ⟨rfl, hj.symm⟩
    · rw [Function.update_of_ne hi] at hj
      exact .inr ⟨hi, hj⟩
  refine ⟨fun i' j hj => ?_, fun i' i'' j hj hj' => ?_, fun i' j hj d hd => ?_, h.once,
    fun d hd => (h.served d hd).mono q, fun j hj => ?_⟩
  · rw [List.length_append, List.length_singleton]
    rcases hcases i' j hj with ⟨-, rfl⟩ | ⟨-, hj⟩
    · exact Nat.lt_succ_self _
    · exact Nat.lt_succ_of_lt (h.bounded i' j hj)
  · rcases hcases i' j hj with ⟨hi', rfl⟩ | ⟨-, hold⟩ <;>
      rcases hcases i'' _ hj' with ⟨hi'', hlast⟩ | ⟨-, hold'⟩
    · exact hi'.trans hi''.symm
    · exact absurd (h.bounded i'' _ hold') (lt_irrefl _)
    · exact absurd (hlast ▸ h.bounded i' j hold) (lt_irrefl _)
    · exact h.apart i' i'' j hold hold'
  · rcases hcases i' j hj with ⟨-, rfl⟩ | ⟨-, hj⟩
    · have hreplied := (h.served d hd).replied
      omega
    · exact h.unserved i' j hj d hd
  · rw [List.length_append, List.length_singleton, Nat.lt_succ_iff_lt_or_eq] at hj
    rcases hj with hj | rfl
    · refine (h.nothingElse j hj).imp_left fun ⟨i', hi'⟩ => ⟨i', ?_⟩
      rw [Function.update_of_ne (by rintro rfl; simp [hi] at hi')]
      exact hi'
    · exact .inl ⟨i, by simp⟩

/-- A request that has taken effect is answered. -/
theorem answer (h : InOrder p a log pending done) {i : ι} {d : Served Q R}
    (hi : pending i = some d.moment) (hd : d.RightIn p a log) :
    InOrder p a log (Function.update pending i none) (done ++ [d]) := by
  have hmem : ∀ i' j, j ∈ Function.update pending i none i' → i' ≠ i ∧ j ∈ pending i' := by
    intro i' j hj
    by_cases hi' : i' = i
    · subst hi'
      rw [Function.update_self] at hj
      cases hj
    · rw [Function.update_of_ne hi'] at hj
      exact ⟨hi', hj⟩
  refine ⟨fun i' j hj => h.bounded i' j (hmem i' j hj).2,
    fun i' i'' j hj hj' => h.apart i' i'' j (hmem i' j hj).2 (hmem i'' j hj').2,
    fun i' j hj d' hd' => ?_, ?_, fun d' hd' => ?_, fun j hj => ?_⟩
  · obtain ⟨hne, hj⟩ := hmem i' j hj
    rw [List.mem_append, List.mem_singleton] at hd'
    rcases hd' with hd' | rfl
    · exact h.unserved i' j hj d' hd'
    · exact fun heq => hne (h.apart i' i j hj (heq ▸ hi))
  · rw [List.map_append, List.map_singleton, List.nodup_append]
    refine ⟨h.once, List.nodup_singleton _, fun m hm m' hm' heq => ?_⟩
    obtain ⟨d', hd', rfl⟩ := List.mem_map.mp hm
    rw [List.mem_singleton] at hm'
    exact h.unserved i d.moment hi d' hd' (heq.trans hm')
  · rw [List.mem_append, List.mem_singleton] at hd'
    rcases hd' with hd' | rfl
    · exact h.served d' hd'
    · exact hd
  · rcases h.nothingElse j hj with ⟨i', hi'⟩ | ⟨d', hd', rfl⟩
    · by_cases hsame : i' = i
      · rw [hsame, hi, Option.mem_some_iff] at hi'
        exact .inr ⟨d, List.mem_append_right _ (List.mem_singleton_self d), hi'⟩
      · exact .inl ⟨i', by rw [Function.update_of_ne hsame]; exact hi'⟩
    · exact .inr ⟨d', List.mem_append_left _ hd', rfl⟩

end InOrder

end VideoMatch.Machine
