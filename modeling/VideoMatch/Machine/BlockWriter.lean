/-
VideoMatch.Machine.BlockWriter — output collected in a block of fixed size.

A `BlockWriter n` is a block of `n` bytes filled from the front, and the
list of the blocks handed to the system so far. That the fill level stays
within the block is a field, so a store that would leave the block has no
result: `put` is `none` there.

`checkFlush i` is the usual guard: hand the block over and start again if
fewer than `i` bytes are left. It promises an empty block, not `i` free
bytes. A piece put behind its own guard therefore succeeds exactly if it
fits an empty block (`put_checkFlush_isSome_iff`), whatever the fill level
was. What reaches the system is the concatenation of the pieces
(`output_put`, `output_checkFlush`), and the number of blocks is that of
next-fit packing (`blocksClosed`), a function of the sizes alone.
-/
import VideoMatch.Machine.FileSystem

namespace VideoMatch.Machine

/-- A block of `n` bytes, and the blocks handed over so far. -/
structure BlockWriter (n : Nat) where
  block : FileBytes
  fits : block.length ≤ n
  writes : List FileBytes

namespace BlockWriter

variable {n : Nat}

/-- An empty block, nothing handed over. -/
def start (n : Nat) : BlockWriter n := ⟨[], Nat.zero_le n, []⟩

/-- Store `bs` behind what the block holds; `none` if it does not fit. -/
def put (w : BlockWriter n) (bs : FileBytes) : Option (BlockWriter n) :=
  if h : w.block.length + bs.length ≤ n then
    some ⟨w.block ++ bs, by rw [List.length_append]; exact h, w.writes⟩
  else none

/-- Hand the block over and start an empty one. -/
def flush (w : BlockWriter n) : BlockWriter n := ⟨[], Nat.zero_le n, w.writes ++ [w.block]⟩

/-- The boundary check: flush if fewer than `i` bytes are left. -/
def checkFlush (w : BlockWriter n) (i : Int) : BlockWriter n :=
  if (n : Int) - w.block.length < i then w.flush else w

/-- Everything stored so far, in order. -/
def output (w : BlockWriter n) : FileBytes := w.writes.flatten ++ w.block

@[simp] theorem output_flush (w : BlockWriter n) : w.flush.output = w.output := by
  simp [output, flush]

@[simp] theorem output_checkFlush (w : BlockWriter n) (i : Int) :
    (w.checkFlush i).output = w.output := by
  unfold checkFlush
  split <;> simp

/-! ## Storing -/

theorem put_eq_some_iff {w w' : BlockWriter n} {bs : FileBytes} :
    w.put bs = some w' ↔ w'.block = w.block ++ bs ∧ w'.writes = w.writes := by
  obtain ⟨block, fits, writes⟩ := w'
  unfold put
  constructor
  · intro h
    split at h
    · cases h; exact ⟨rfl, rfl⟩
    · cases h
  · intro h
    obtain ⟨rfl, rfl⟩ := h
    rw [dif_pos (by rw [← List.length_append]; exact fits)]

theorem put_isSome_iff {w : BlockWriter n} {bs : FileBytes} :
    (w.put bs).isSome ↔ w.block.length + bs.length ≤ n := by
  unfold put
  split
  · next h => simpa using h
  · next h => simpa using h

/-- A store appends to the output. -/
theorem output_put {w w' : BlockWriter n} {bs : FileBytes} (h : w.put bs = some w') :
    w'.output = w.output ++ bs := by
  obtain ⟨hblock, hwrites⟩ := put_eq_some_iff.mp h
  rw [output, output, hblock, hwrites, List.append_assoc]

/-- Two stores in a row are one store. -/
theorem put_bind_put (w : BlockWriter n) (bs cs : FileBytes) :
    ((w.put bs).bind fun w => w.put cs) = w.put (bs ++ cs) := by
  unfold put
  by_cases h : w.block.length + bs.length ≤ n
  · rw [dif_pos h, Option.bind_some]
    simp only [List.length_append, Nat.add_assoc, List.append_assoc]
  · rw [dif_neg h, dif_neg (by rw [List.length_append]; omega), Option.bind_none]

theorem put_bind_put_bind {β : Type*} (w : BlockWriter n) (bs cs : FileBytes)
    (k : BlockWriter n → Option β) :
    ((w.put bs).bind fun w => (w.put cs).bind k) = (w.put (bs ++ cs)).bind k := by
  rw [← put_bind_put, Option.bind_assoc]

/-- A store behind its own guard succeeds exactly if it fits an empty
block. -/
theorem put_checkFlush_isSome_iff {w : BlockWriter n} {bs : FileBytes} {i : Int}
    (hi : (bs.length : Int) ≤ n → i = bs.length) :
    ((w.checkFlush i).put bs).isSome ↔ bs.length ≤ n := by
  rw [put_isSome_iff]
  unfold checkFlush
  constructor
  · intro h; omega
  · intro h
    have hi := hi (by omega)
    split
    · simpa [flush] using h
    · omega

/-! ## Counting blocks -/

/-- The number of blocks next-fit packing closes when pieces of these sizes
follow a fill level of `used`. -/
def blocksClosed (n : Nat) : Nat → List Nat → Nat
  | _, [] => 0
  | used, k :: ks =>
      if n < used + k then blocksClosed n k ks + 1 else blocksClosed n (used + k) ks

/-- A piece and the argument its guard is called with. -/
abbrev Piece := Int × FileBytes

/-- Store each piece behind its guard. -/
def putPieces (w : BlockWriter n) (ps : List Piece) : Option (BlockWriter n) :=
  ps.foldlM (fun w p => (w.checkFlush p.1).put p.2) w

/-- The guard of a piece that fits a block asks for its size. -/
def Guarded (n : Nat) (ps : List Piece) : Prop :=
  ∀ p ∈ ps, (p.2.length : Int) ≤ n → p.1 = p.2.length

theorem putPieces_cons (w : BlockWriter n) (p : Piece) (ps : List Piece) :
    w.putPieces (p :: ps) = ((w.checkFlush p.1).put p.2).bind fun w => w.putPieces ps := by
  simp [putPieces]

theorem putPieces_append (w : BlockWriter n) (ps qs : List Piece) :
    w.putPieces (ps ++ qs) = (w.putPieces ps).bind fun w => w.putPieces qs := by
  simp [putPieces, List.foldlM_append]

/-- Guarded pieces can all be stored exactly if each fits a block. -/
theorem putPieces_isSome_iff : ∀ (ps : List Piece) (w : BlockWriter n), Guarded n ps →
    ((w.putPieces ps).isSome ↔ ∀ p ∈ ps, p.2.length ≤ n) := by
  intro ps
  induction ps with
  | nil => intro w _; simp [putPieces]
  | cons p ps ih =>
      intro w hg
      have hp := put_checkFlush_isSome_iff (w := w) (hg p (by simp))
      rw [putPieces_cons, List.forall_mem_cons]
      cases hput : (w.checkFlush p.1).put p.2 with
      | none =>
          rw [hput] at hp
          simp only [Option.isSome_none, Bool.false_eq_true, false_iff] at hp
          simp [hp]
      | some w' =>
          rw [hput] at hp
          have hrest := ih w' fun q hq => hg q (List.mem_cons_of_mem _ hq)
          rw [Option.bind_some, hrest]
          simp only [Option.isSome_some, true_iff] at hp
          simp [hp]

/-- What guarded pieces put out, and the number of blocks they close. -/
theorem putPieces_spec : ∀ (ps : List Piece) {w w' : BlockWriter n}, Guarded n ps →
    w.putPieces ps = some w' →
    w'.output = w.output ++ ps.flatMap Prod.snd ∧
      w'.writes.length = w.writes.length
        + blocksClosed n w.block.length (ps.map fun p => p.2.length) := by
  intro ps
  induction ps with
  | nil =>
      intro w w' _ h
      simp only [putPieces, List.foldlM_nil, Option.pure_def, Option.some.injEq] at h
      subst h
      simp [blocksClosed]
  | cons p ps ih =>
      intro w w' hg h
      rw [putPieces_cons, Option.bind_eq_some_iff] at h
      obtain ⟨v, hv, h⟩ := h
      have hg' : Guarded n ps := fun q hq => hg q (List.mem_cons_of_mem _ hq)
      obtain ⟨hout, hcount⟩ := ih hg' h
      have hfit : p.2.length ≤ n :=
        (put_checkFlush_isSome_iff (hg p (by simp))).mp (by rw [hv]; rfl)
      have hi : p.1 = p.2.length := hg p (by simp) (by exact_mod_cast hfit)
      obtain ⟨hblock, hwrites⟩ := put_eq_some_iff.mp hv
      refine ⟨by rw [hout, output_put hv]; simp, ?_⟩
      rw [hcount, hblock, hwrites, List.map_cons, blocksClosed, checkFlush, hi]
      have hfits := w.fits
      by_cases hfull : n < w.block.length + p.2.length
      · rw [if_pos (by omega), if_pos hfull]
        simp only [flush, List.length_append, List.length_singleton, List.length_nil, Nat.zero_add]
        omega
      · rw [if_neg (by omega), if_neg hfull, List.length_append]

end BlockWriter

end VideoMatch.Machine
