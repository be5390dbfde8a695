/-
VideoMatch.Cxx.Loops — C++ loops as folds over a fallible body.

A loop of the source becomes a fold of its body in `Option`: `some` is
the state after an iteration, `none` the fault an iteration can meet (a
vector index or a pointer out of range). Three shapes are enough for the
code this development reads:

* a plain counted loop, or a range-`for` over a container, is
  `List.foldlM` over the values of the loop variable;
* a counted loop that does not use its variable is `times`;
* a counted loop that may leave early is `forBreak`, whose body answers
  with a `Flow`: go on to the next value, or take `break`.

The rules for `forBreak` and `foldlM` are total-correctness rules. Each
asks that the body, from a state that satisfies the invariant, both
succeeds and keeps the invariant; each concludes that the whole loop
succeeds and keeps it. The fault freedom of a loop is therefore never a
separate argument. `times_inv` is about a loop that is known to have
ended. `forBreak_range` gives the result of a loop that only looks for the
first value with some property.
-/
import Mathlib

namespace VideoMatch.Cxx

variable {σ ι : Type*}

/-- How one iteration ends: with the next value of the loop variable, or
with `break`. -/
inductive Flow (σ : Type*) where
  | next (s : σ)
  | brk (s : σ)

/-- The loop state after the iteration, however it ended. -/
def Flow.state : Flow σ → σ
  | .next s => s
  | .brk s => s

@[simp] theorem Flow.state_next (s : σ) : (Flow.next s).state = s := rfl

@[simp] theorem Flow.state_brk (s : σ) : (Flow.brk s).state = s := rfl

/-- `for (x : xs) body`, where the body may `break`. -/
def forBreak (body : σ → ι → Option (Flow σ)) : List ι → σ → Option σ
  | [], s => some s
  | x :: xs, s =>
      match body s x with
      | none => none
      | some (.brk s') => some s'
      | some (.next s') => forBreak body xs s'

/-- `for (i = 0; i < n; i++) f`, where the body does not use `i`. -/
def times (f : σ → Option σ) : Nat → σ → Option σ
  | 0, s => some s
  | n + 1, s => (f s).bind (times f n)

/-! ## Invariant rules -/

/-- A state predicate the body keeps holds when the loop ends, whether it
ran out of values or broke off. -/
theorem forBreak_total {P : σ → Prop} {f : σ → ι → Option (Flow σ)} :
    ∀ (xs : List ι) (s : σ),
      (∀ s x, x ∈ xs → P s → ∃ r, f s x = some r ∧ P r.state) → P s →
      ∃ s', forBreak f xs s = some s' ∧ P s' := by
  intro xs
  induction xs with
  | nil => intro s _ hs; exact ⟨s, rfl, hs⟩
  | cons x xs ih =>
      intro s hbody hs
      obtain ⟨r, hr, hP⟩ := hbody s x (by simp) hs
      cases r with
      | brk s' => exact ⟨s', by simp [forBreak, hr], hP⟩
      | next s' =>
          obtain ⟨t, ht, hPt⟩ := ih s' (fun s x hx => hbody s x (List.mem_cons_of_mem _ hx)) hP
          exact ⟨t, by simp [forBreak, hr, ht], hPt⟩

/-- A loop that never breaks off handles every value: the invariant may
speak of the values handled so far. -/
theorem forBreak_all {P : List ι → σ → Prop} {f : σ → ι → Option (Flow σ)}
    (xs : List ι) (s : σ)
    (hbody : ∀ done x rest s, xs = done ++ x :: rest → P done s →
      ∃ s', f s x = some (.next s') ∧ P (done ++ [x]) s')
    (hs : P [] s) :
    ∃ s', forBreak f xs s = some s' ∧ P xs s' := by
  suffices h : ∀ (rest done : List ι) (s : σ), xs = done ++ rest → P done s →
      ∃ s', forBreak f rest s = some s' ∧ P xs s' from h xs [] s rfl hs
  intro rest
  induction rest with
  | nil => intro done s hxs hP; exact ⟨s, rfl, by simpa [hxs] using hP⟩
  | cons x rest ih =>
      intro done s hxs hP
      obtain ⟨s', hs', hP'⟩ := hbody done x rest s hxs hP
      obtain ⟨t, ht, hPt⟩ := ih (done ++ [x]) s' (by simp [hxs]) hP'
      exact ⟨t, by simp [forBreak, hs', ht], hPt⟩

/-- A loop that handles the values of `xs` and leaves at the next value, if
there is one. -/
theorem forBreak_until {P : List ι → σ → Prop} {f : σ → ι → Option (Flow σ)}
    (xs ys : List ι) (s : σ)
    (hbody : ∀ done x rest s, xs = done ++ x :: rest → P done s →
      ∃ s', f s x = some (.next s') ∧ P (done ++ [x]) s')
    (hstop : ∀ s y rest, ys = y :: rest → P xs s → f s y = some (.brk s)) (hs : P [] s) :
    ∃ s', forBreak f (xs ++ ys) s = some s' ∧ P xs s' := by
  suffices h : ∀ (rest done : List ι) (s : σ), xs = done ++ rest → P done s →
      ∃ s', forBreak f (rest ++ ys) s = some s' ∧ P xs s' from h xs [] s rfl hs
  intro rest
  induction rest with
  | nil =>
      intro done s hxs hP
      rw [List.append_nil] at hxs
      subst hxs
      refine ⟨s, ?_, hP⟩
      cases ys with
      | nil => rfl
      | cons y rest => simp [forBreak, hstop s y rest rfl hP]
  | cons x rest ih =>
      intro done s hxs hP
      obtain ⟨s', hs', hP'⟩ := hbody done x rest s hxs hP
      obtain ⟨t, ht, hPt⟩ := ih (done ++ [x]) s' (by simp [hxs]) hP'
      exact ⟨t, by simp [forBreak, hs', ht], hPt⟩

/-- Where a counted loop ends that breaks off at the first value with
`stop`: at this value, or else at the last one. -/
def stopAt (stop : Nat → Bool) (n : Nat) : Nat := ((List.range n).find? stop).getD (n - 1)

theorem stopAt_lt (stop : Nat → Bool) {n : Nat} (hn : 0 < n) : stopAt stop n < n := by
  rw [stopAt]
  cases hfind : (List.range n).find? stop with
  | none => simp; omega
  | some i => simpa using List.mem_of_find?_eq_some hfind

/-- The values before the end do not stop the loop; the end does, unless it
is the last value. -/
theorem stopAt_spec (stop : Nat → Bool) (n : Nat) :
    (∀ i < stopAt stop n, stop i = false) ∧
      (stopAt stop n + 1 < n → stop (stopAt stop n) = true) := by
  rw [stopAt]
  cases hfind : (List.range n).find? stop with
  | none =>
      rw [List.find?_eq_none] at hfind
      simp only [Option.getD_none]
      refine ⟨fun i hi => ?_, fun hlt => by omega⟩
      simpa using hfind i (List.mem_range.mpr (by omega))
  | some k =>
      rw [List.find?_range_eq_some] at hfind
      obtain ⟨hstop, -, hbefore⟩ := hfind
      exact ⟨fun i hi => by simpa using hbefore i hi, fun _ => hstop⟩

/-- Two tests end the loop at the same value exactly if they agree on every
value that is reached, the last one apart. -/
theorem stopAt_eq_iff {stop stop' : Nat → Bool} {n : Nat} : stopAt stop n = stopAt stop' n ↔
    ∀ i, i + 1 < n → (∀ j < i, stop j = false) → stop i = stop' i := by
  obtain ⟨hbefore, hend⟩ := stopAt_spec stop n
  obtain ⟨hbefore', hend'⟩ := stopAt_spec stop' n
  rcases Nat.eq_zero_or_pos n with rfl | hn
  · exact iff_of_true rfl fun i hi => absurd hi (Nat.not_lt_zero _)
  have hlt := stopAt_lt stop hn
  have hlt' := stopAt_lt stop' hn
  generalize stopAt stop n = k at hbefore hend hlt ⊢
  generalize stopAt stop' n = l at hbefore' hend' hlt' ⊢
  constructor
  · rintro rfl i hi hfirst
    rcases Nat.lt_trichotomy i k with hik | rfl | hki
    · rw [hbefore i hik, hbefore' i hik]
    · rw [hend hi, hend' hi]
    · exact absurd ((hfirst k hki).symm.trans (hend (by omega))) (by decide)
  · intro h
    rcases Nat.lt_trichotomy k l with hkl | hkl | hlk
    · have hagree := h k (by omega) hbefore
      rw [hend (by omega), hbefore' k hkl] at hagree
      exact absurd hagree (by decide)
    · exact hkl
    · have hagree := h l (by omega) fun j hj => hbefore j (by omega)
      rw [hbefore l hlk, hend' (by omega)] at hagree
      exact absurd hagree (by decide)

/-- A loop whose state after the value `i` is `after i`, and which breaks
off at the first value with `stop`. -/
theorem forBreak_range {f : σ → Nat → Option (Flow σ)} (after : Nat → σ) {stop : Nat → Bool}
    {n : Nat} {s : σ}
    (hbody : ∀ i < n, ∀ t, (t = if i = 0 then s else after (i - 1)) →
      f t i = some (if stop i then .brk (after i) else .next (after i))) :
    forBreak f (List.range n) s = some (if n = 0 then s else after (stopAt stop n)) := by
  suffices h : ∀ m k t, k + m = n → (t = if k = 0 then s else after (k - 1)) →
      forBreak f (List.range' k m) t
        = some (if m = 0 then t else after (((List.range' k m).find? stop).getD (n - 1))) by
    rw [List.range_eq_range', h n 0 s (Nat.zero_add n) (if_pos rfl).symm, stopAt,
      List.range_eq_range']
  intro m
  induction m with
  | zero => intro k t _ _; rfl
  | succ m ih =>
      intro k t hk ht
      rw [List.range'_succ, forBreak, hbody k (by omega) t ht, List.find?_cons]
      cases hstop : stop k with
      | true => rfl
      | false =>
          have hnext : after k = if k + 1 = 0 then s else after (k + 1 - 1) := rfl
          simp only [Bool.false_eq_true, if_false, ih (k + 1) (after k) (by omega) hnext,
            Nat.add_one_ne_zero]
          split
          · next hm =>
              have hlast : k = n - 1 := by omega
              simp [hm, ← hlast]
          · rfl

/-- The counted loop without `break`, with the values handled so far in
the invariant. -/
theorem foldlM_all {P : List ι → σ → Prop} {f : σ → ι → Option σ}
    (xs : List ι) (s : σ)
    (hbody : ∀ done x rest s, xs = done ++ x :: rest → P done s →
      ∃ s', f s x = some s' ∧ P (done ++ [x]) s')
    (hs : P [] s) :
    ∃ s', xs.foldlM f s = some s' ∧ P xs s' := by
  suffices h : ∀ (rest done : List ι) (s : σ), xs = done ++ rest → P done s →
      ∃ s', rest.foldlM f s = some s' ∧ P xs s' from h xs [] s rfl hs
  intro rest
  induction rest with
  | nil => intro done s hxs hP; exact ⟨s, rfl, by simpa [hxs] using hP⟩
  | cons x rest ih =>
      intro done s hxs hP
      obtain ⟨s', hs', hP'⟩ := hbody done x rest s hxs hP
      obtain ⟨t, ht, hPt⟩ := ih (done ++ [x]) s' (by simp [hxs]) hP'
      exact ⟨t, by simp [List.foldlM_cons, hs', ht], hPt⟩

/-- The counted loop without `break`, for an invariant of the state alone. -/
theorem foldlM_total {P : σ → Prop} {f : σ → ι → Option σ} (xs : List ι) (s : σ)
    (hbody : ∀ s x, x ∈ xs → P s → ∃ s', f s x = some s' ∧ P s') (hs : P s) :
    ∃ s', xs.foldlM f s = some s' ∧ P s' :=
  foldlM_all (P := fun _ s => P s) xs s
    (fun _ x _ s hxs hP => hbody s x (by simp [hxs]) hP) hs

/-- What every iteration keeps, if the loop comes back. -/
theorem foldlM_inv {P : σ → Prop} {f : σ → ι → Option σ}
    (hbody : ∀ s x s', P s → f s x = some s' → P s') :
    ∀ (xs : List ι) {s s' : σ}, xs.foldlM f s = some s' → P s → P s' := by
  intro xs
  induction xs with
  | nil =>
      intro s s' h hs
      cases h
      exact hs
  | cons x xs ih =>
      intro s s' h hs
      rw [List.foldlM_cons, Option.bind_eq_bind, Option.bind_eq_some_iff] at h
      obtain ⟨t, ht, h⟩ := h
      exact ih h (hbody s x t hs ht)

/-- A loop over the indices of a vector that reads the element at its
index is a loop over the elements. -/
theorem foldlM_range_getElem? {α : Type*} (g : σ → α → Option σ) :
    ∀ (l : List α) (s : σ),
      (List.range l.length).foldlM (fun s i => l[i]?.bind (g s)) s = l.foldlM g s := by
  intro l
  induction l with
  | nil => intro s; rfl
  | cons a l ih =>
      intro s
      rw [List.length_cons, List.range_succ_eq_map, List.foldlM_cons, List.foldlM_cons]
      simp only [List.foldlM_map, List.getElem?_cons_zero, List.getElem?_cons_succ,
        Option.bind_some, Option.bind_eq_bind]
      cases g s a with
      | none => rfl
      | some t => exact ih t

/-- A counted loop that adds a value at every step. -/
theorem foldlM_range_sum {M : Type*} [AddCommMonoid M] {f : M → Nat → Option M} {g : Nat → M}
    {n : Nat} (hbody : ∀ i < n, ∀ s, f s i = some (s + g i)) (s : M) :
    (List.range n).foldlM f s = some (s + ∑ i ∈ Finset.range n, g i) := by
  induction n with
  | zero => simp
  | succ n ih =>
      have hstep := ih fun i hi => hbody i (Nat.lt_succ_of_lt hi)
      rw [List.range_succ, List.foldlM_append, hstep, Option.bind_eq_bind, Option.bind_some,
        List.foldlM_cons, hbody n (Nat.lt_succ_self n), Finset.sum_range_succ, add_assoc]
      rfl

/-- A loop that fills the first `n` places of a cleared array. -/
theorem foldl_set_replicate {α : Type*} (f : Nat → α) (d : α) (n m : Nat) :
    (List.range n).foldl (fun t i => t.set i (f i)) (List.replicate m d)
      = (List.range m).map fun i => if i < n then f i else d := by
  induction n with
  | zero => simp [List.map_const']
  | succ n ih =>
      rw [List.range_succ, List.foldl_append, ih, List.foldl_cons, List.foldl_nil]
      apply List.ext_getElem (by simp)
      intro i h₁ h₂
      simp only [List.getElem_set, List.getElem_map, List.getElem_range]
      rcases Nat.lt_trichotomy i n with hlt | rfl | hgt
      · simp [hlt, hlt.ne', Nat.lt_succ_of_lt hlt]
      · simp
      · rw [if_neg hgt.ne, if_neg (by omega), if_neg (by omega)]

/-- What a repeated body that is known to have ended kept; the invariant
may speak of the number of iterations so far. -/
theorem times_inv {P : Nat → σ → Prop} {f : σ → Option σ}
    (hbody : ∀ k s s', P k s → f s = some s' → P (k + 1) s') :
    ∀ (n k : Nat) {s s' : σ}, times f n s = some s' → P k s → P (k + n) s' := by
  intro n
  induction n with
  | zero =>
      intro k s s' h hs
      cases h
      exact hs
  | succ n ih =>
      intro k s s' h hs
      rw [times, Option.bind_eq_some_iff] at h
      obtain ⟨t, ht, h⟩ := h
      have hrest := ih (k + 1) h (hbody k s t hs ht)
      rwa [Nat.add_assoc, Nat.add_comm 1 n] at hrest

/-! ## Forgetting a part of the state

A loop that carries more than another one, and does the same to the part
they share, is the other loop on that part. -/

/-- The outcome of an iteration, seen through `g`. -/
def Flow.map {τ : Type*} (g : σ → τ) : Flow σ → Flow τ
  | .next s => .next (g s)
  | .brk s => .brk (g s)

theorem foldlM_map_state {τ : Type*} (g : σ → τ) {f : σ → ι → Option σ} {f' : τ → ι → Option τ}
    (h : ∀ s x, (f s x).map g = f' (g s) x) :
    ∀ (xs : List ι) (s : σ), (xs.foldlM f s).map g = xs.foldlM f' (g s) := by
  intro xs
  induction xs with
  | nil => intro s; rfl
  | cons x xs ih =>
      intro s
      rw [List.foldlM_cons, List.foldlM_cons, ← h s x]
      cases f s x with
      | none => rfl
      | some t => exact ih t

theorem times_map_state {τ : Type*} (g : σ → τ) {f : σ → Option σ} {f' : τ → Option τ}
    (h : ∀ s, (f s).map g = f' (g s)) :
    ∀ (n : Nat) (s : σ), (times f n s).map g = times f' n (g s) := by
  intro n
  induction n with
  | zero => intro s; rfl
  | succ n ih =>
      intro s
      rw [times, times, ← h s]
      cases f s with
      | none => rfl
      | some t => exact ih t

theorem forBreak_map_state {τ : Type*} (g : σ → τ) {f : σ → ι → Option (Flow σ)}
    {f' : τ → ι → Option (Flow τ)} (h : ∀ s x, (f s x).map (Flow.map g) = f' (g s) x) :
    ∀ (xs : List ι) (s : σ), (forBreak f xs s).map g = forBreak f' xs (g s) := by
  intro xs
  induction xs with
  | nil => intro s; rfl
  | cons x xs ih =>
      intro s
      have hx := h s x
      cases hf : f s x with
      | none =>
          rw [hf, Option.map_none] at hx
          simp [forBreak, hf, ← hx]
      | some r =>
          rw [hf, Option.map_some] at hx
          cases r with
          | brk t => simp [forBreak, hf, ← hx, Flow.map]
          | next t => simp [forBreak, hf, ← hx, Flow.map, ih t]

/-! ## Comparing two runs -/

/-- Whatever `a` computes, `b` computes. -/
def Agrees {α : Type*} (a b : Option α) : Prop := ∀ r, a = some r → b = some r

namespace Agrees

variable {α β : Type*}

theorem refl (a : Option α) : Agrees a a := fun _ h => h

theorem bind {a b : Option α} {f g : α → Option β} (h : Agrees a b)
    (hfg : ∀ x, Agrees (f x) (g x)) : Agrees (a.bind f) (b.bind g) := by
  intro r hr
  obtain ⟨x, hx, hr⟩ := Option.bind_eq_some_iff.mp hr
  exact Option.bind_eq_some_iff.mpr ⟨x, h x hx, hfg x r hr⟩

theorem map {a b : Option α} (f : α → β) (h : Agrees a b) : Agrees (a.map f) (b.map f) := by
  intro r hr
  obtain ⟨x, hx, rfl⟩ := Option.map_eq_some_iff.mp hr
  exact Option.map_eq_some_iff.mpr ⟨x, h x hx, rfl⟩

theorem times {f g : σ → Option σ} (hfg : ∀ s, Agrees (f s) (g s)) :
    ∀ (n : Nat) (s : σ), Agrees (times f n s) (times g n s) := by
  intro n
  induction n with
  | zero => intro s; exact refl _
  | succ n ih => intro s; exact bind (hfg s) ih

end Agrees

end VideoMatch.Cxx
