/-
VideoMatch.Cxx.LinkedList — doubly linked lists through heap objects.

The objects of a heap carry two pointers each, read by `prev` and `next`.
`Segment before ps after` says that the objects at `ps` are linked in this
order, that the first points back to `before` and the last points on to
`after`. A list is a segment between two null pointers. Splicing code is
proved by cutting a segment in two (`segment_append`), changing the ends
of the pieces (`Segment.set_prev`, `Segment.set_next`) and joining them
again. `Relinks` says what a splice leaves alone. `Walk link start ps` is
what a reader of the list sees: following one of the pointers from `start`
visits `ps` and ends at null.
-/
import VideoMatch.Cxx.Heap

namespace VideoMatch.Cxx

variable {α : Type*}

/-- Following `link` from `start` visits `ps` and ends at null. -/
inductive Walk (h : Heap α) (link : α → Option Nat) : Option Nat → List Nat → Prop
  | nil : Walk h link none []
  | cons {p : Nat} {a : α} {ps : List Nat} : h.read p = some a → Walk h link (link a) ps →
      Walk h link (some p) (p :: ps)

/-- The objects at `ps` are linked in this order, from `before` to `after`. -/
def Segment (prev next : α → Option Nat) (h : Heap α) :
    Option Nat → List Nat → Option Nat → Prop
  | _, [], _ => True
  | before, p :: ps, after =>
      (∃ a, h.read p = some a ∧ prev a = before ∧ next a = ps.head?.or after) ∧
        Segment prev next h (some p) ps after

section

variable {prev next : α → Option Nat} {h h' : Heap α} {before after : Option Nat}
  {ps qs : List Nat} {p : Nat}

theorem segment_append : ∀ (ps : List Nat) {before : Option Nat},
    Segment prev next h before (ps ++ qs) after ↔
      Segment prev next h before ps (qs.head?.or after) ∧
        Segment prev next h (ps.getLast?.or before) qs after := by
  intro ps
  induction ps with
  | nil => intro before; simp [Segment]
  | cons p ps ih =>
      intro before
      have hhead : ((ps ++ qs).head?).or after = ps.head?.or (qs.head?.or after) := by
        cases ps <;> simp
      have hlast : (ps.getLast?).or (some p) = ((p :: ps).getLast?).or before := by
        cases ps <;> simp [List.getLast?_cons]
      rw [List.cons_append, Segment, Segment, ih, hhead, hlast, and_assoc]

/-- A segment depends on its own objects only. -/
theorem Segment.congr : ∀ {ps : List Nat} {before : Option Nat},
    Segment prev next h before ps after → (∀ q ∈ ps, h'.read q = h.read q) →
    Segment prev next h' before ps after := by
  intro ps
  induction ps with
  | nil => intro _ _ _; trivial
  | cons p ps ih =>
      intro before hseg hread
      obtain ⟨⟨a, ha, hlinks⟩, hrest⟩ := hseg
      exact ⟨⟨a, by rw [hread p (by simp), ha], hlinks⟩,
        ih hrest fun q hq => hread q (List.mem_cons_of_mem _ hq)⟩

theorem Segment.modify_of_not_mem (hseg : Segment prev next h before ps after) (f : α → α)
    (hp : p ∉ ps) : Segment prev next (h.modify p f) before ps after :=
  hseg.congr fun _ hq => h.read_modify_of_ne f (ne_of_mem_of_not_mem hq hp)

theorem Segment.read (hseg : Segment prev next h before ps after) (hp : p ∈ ps) :
    ∃ a, h.read p = some a := by
  induction ps generalizing before with
  | nil => simp at hp
  | cons q ps ih =>
      obtain ⟨⟨a, ha, -⟩, hrest⟩ := hseg
      rcases List.mem_cons.mp hp with rfl | hp
      · exact ⟨a, ha⟩
      · exact ih hrest hp

/-- From `h` to `h'` only objects at `ps` changed, and of them only what `g`
does not read. -/
structure Relinks {β : Type*} (g : α → β) (ps : List Nat) (h h' : Heap α) : Prop where
  frame : ∀ q, q ∉ ps → h'.read q = h.read q
  payload : ∀ q, (h'.read q).map g = (h.read q).map g

namespace Relinks

variable {β : Type*} {g : α → β}

theorem refl (g : α → β) (ps : List Nat) (h : Heap α) : Relinks g ps h h :=
  ⟨fun _ _ => rfl, fun _ => rfl⟩

theorem modify {f : α → α} (hp : p ∈ ps) (hg : ∀ a, g (f a) = g a) :
    Relinks g ps h (h.modify p f) :=
  ⟨fun _ hq => h.read_modify_of_ne f (ne_of_mem_of_not_mem hp hq).symm,
    fun q => h.map_read_modify p q f g hg⟩

/-- No object comes or goes. -/
theorem isSome_read (h₁ : Relinks g ps h h') (q : Nat) :
    (h'.read q).isSome = (h.read q).isSome := by
  simpa using congrArg Option.isSome (h₁.payload q)

theorem segment (h₁ : Relinks g ps h h') (hseg : Segment prev next h before qs after)
    (hdisj : List.Disjoint ps qs) : Segment prev next h' before qs after :=
  hseg.congr fun q hq => h₁.frame q fun hmem => hdisj hmem hq

end Relinks

/-- The first object of a segment is made to point back elsewhere. -/
theorem Segment.set_prev (hseg : Segment prev next h before ps after) (hnodup : ps.Nodup)
    (hp : ps.head? = some p) {f : α → α} {before' : Option Nat} (hprev : ∀ a, prev (f a) = before')
    (hnext : ∀ a, next (f a) = next a) :
    Segment prev next (h.modify p f) before' ps after := by
  cases ps with
  | nil => simp at hp
  | cons q ps =>
      cases Option.some.inj hp
      obtain ⟨⟨a, ha, -, hlink⟩, hrest⟩ := hseg
      refine ⟨⟨f a, by simp [ha], hprev a, (hnext a).trans hlink⟩, ?_⟩
      exact hrest.modify_of_not_mem f (List.nodup_cons.mp hnodup).1

/-- The last object of a segment is made to point on elsewhere. -/
theorem Segment.set_next (hseg : Segment prev next h before ps after) (hnodup : ps.Nodup)
    (hp : ps.getLast? = some p) {f : α → α} {after' : Option Nat} (hprev : ∀ a, prev (f a) = prev a)
    (hnext : ∀ a, next (f a) = after') :
    Segment prev next (h.modify p f) before ps after' := by
  obtain ⟨init, rfl⟩ := List.getLast?_eq_some_iff.mp hp
  obtain ⟨hinit, ⟨a, ha, hlink, -⟩, -⟩ := (segment_append init).mp hseg
  have hnot : p ∉ init := fun hmem => (List.disjoint_of_nodup_append hnodup) hmem (by simp)
  refine (segment_append init).mpr ⟨hinit.modify_of_not_mem f hnot, ?_, trivial⟩
  exact ⟨f a, by simp [ha], (hprev a).trans hlink, hnext a⟩

/-- `if (first) first->prev = …` -/
theorem Segment.storeIf_prev {β : Type*} (hseg : Segment prev next h before ps after)
    (before' : Option Nat) (hnodup : ps.Nodup) {f : α → α} {g : α → β}
    (hprev : ∀ a, prev (f a) = before') (hnext : ∀ a, next (f a) = next a)
    (hg : ∀ a, g (f a) = g a) :
    ∃ h', h.storeIf ps.head? f = some h' ∧ Segment prev next h' before' ps after ∧
      Relinks g ps h h' := by
  cases hp : ps.head? with
  | none =>
      rw [List.head?_eq_none_iff] at hp
      subst hp
      exact ⟨h, rfl, trivial, .refl g [] h⟩
  | some p =>
      have hmem := List.mem_of_head? hp
      obtain ⟨a, ha⟩ := hseg.read hmem
      exact ⟨_, Heap.store_eq ha f, hseg.set_prev hnodup hp hprev hnext, .modify hmem hg⟩

/-- `if (last) last->next = …` -/
theorem Segment.storeIf_next {β : Type*} (hseg : Segment prev next h before ps after)
    (after' : Option Nat) (hnodup : ps.Nodup) {f : α → α} {g : α → β}
    (hprev : ∀ a, prev (f a) = prev a) (hnext : ∀ a, next (f a) = after')
    (hg : ∀ a, g (f a) = g a) :
    ∃ h', h.storeIf ps.getLast? f = some h' ∧ Segment prev next h' before ps after' ∧
      Relinks g ps h h' := by
  cases hp : ps.getLast? with
  | none =>
      rw [List.getLast?_eq_none_iff] at hp
      subst hp
      exact ⟨h, rfl, trivial, .refl g [] h⟩
  | some p =>
      have hmem := List.mem_of_getLast? hp
      obtain ⟨a, ha⟩ := hseg.read hmem
      exact ⟨_, Heap.store_eq ha f, hseg.set_next hnodup hp hprev hnext, .modify hmem hg⟩

/-! ## Walks -/

/-- From the first object the `next` pointers lead through the segment. -/
theorem Segment.walk_next (hseg : Segment prev next h before ps none) :
    Walk h next ps.head? ps := by
  induction ps generalizing before with
  | nil => exact .nil
  | cons p ps ih =>
      obtain ⟨⟨a, ha, -, hlink⟩, hrest⟩ := hseg
      refine .cons ha ?_
      rw [hlink, Option.or_none]
      exact ih hrest

/-- From the last object the `prev` pointers lead back. -/
theorem Segment.walk_prev (hseg : Segment prev next h none ps after) :
    Walk h prev ps.getLast? ps.reverse := by
  induction ps using List.reverseRecOn generalizing after with
  | nil => exact .nil
  | append_singleton ps p ih =>
      obtain ⟨hinit, ⟨a, ha, hlink, -⟩, -⟩ := (segment_append ps).mp hseg
      rw [List.getLast?_concat, List.reverse_concat]
      refine .cons ha ?_
      rw [hlink, Option.or_none]
      exact ih hinit

end

end VideoMatch.Cxx
