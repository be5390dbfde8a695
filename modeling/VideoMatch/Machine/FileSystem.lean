/-
VideoMatch.Machine.FileSystem — one directory with POSIX semantics.

A directory binds names to files (inodes); a file is a list of bytes. A
descriptor holds a file and an offset, so it stays bound to its file
whatever happens to the names: after `rename` a writer goes on writing
into the file that now has another name, and after `unlink` into a file
without one.

`openCreate` is `open(name, O_WRONLY | O_CREAT)`: the existing file is
opened at offset 0 and keeps its bytes, there is no truncation. A write
replaces the bytes under it and extends the file when it runs past the
end. How much of a write the system accepts is a `WriteOutcome`, chosen
by the environment.

`WellFormed` is the invariant of every directory that the operations
build: names refer to files that exist, and no two names to one file.
-/
import Mathlib

namespace VideoMatch.Machine

/-- A file, a piece of one, or a block to write. -/
abbrev FileBytes := List UInt8

/-- What the system makes of one `write`. -/
inductive WriteOutcome where
  | full
  | short (n : Nat)
  | failed
  deriving DecidableEq, Repr

/-- The number of bytes of a block of `size` bytes that reach the file. A
short write accepts fewer than all of them. -/
def WriteOutcome.accepted (size : Nat) : WriteOutcome → Nat
  | .full => size
  | .short n => min n (size - 1)
  | .failed => 0

/-- An open descriptor: a file and the offset of the next write. -/
structure Fd where
  inode : Nat
  offset : Nat
  deriving DecidableEq, Repr

/-- A directory with file names in `N`. -/
structure FileSystem (N : Type) where
  names : N → Option Nat
  data : Nat → FileBytes
  next : Nat

namespace FileSystem

variable {N : Type}

/-- The bytes of the file named `n`. -/
def contents (fs : FileSystem N) (n : N) : Option FileBytes := (fs.names n).map fs.data

/-- `open(n, O_WRONLY | O_CREAT)`. -/
def openCreate [DecidableEq N] (fs : FileSystem N) (n : N) : FileSystem N × Fd :=
  match fs.names n with
  | some i => (fs, ⟨i, 0⟩)
  | none =>
      (⟨Function.update fs.names n (some fs.next), Function.update fs.data fs.next [], fs.next + 1⟩,
        ⟨fs.next, 0⟩)

/-- Bytes written over `old` from `offset` on; a hole reads as zeros. -/
def overlay (old : FileBytes) (offset : Nat) (bs : FileBytes) : FileBytes :=
  old.take offset ++ List.replicate (offset - old.length) 0 ++ bs ++ old.drop (offset + bs.length)

/-- `write(fd, bs, |bs|)`. -/
def write (fs : FileSystem N) (fd : Fd) (bs : FileBytes) (o : WriteOutcome) : FileSystem N × Fd :=
  let got := bs.take (o.accepted bs.length)
  ({ fs with data := Function.update fs.data fd.inode (overlay (fs.data fd.inode) fd.offset got) },
    { fd with offset := fd.offset + got.length })

/-- One `write` for each block; `out i` is the outcome of the `i`-th. -/
def writeAll (fs : FileSystem N) (fd : Fd) (out : Nat → WriteOutcome) :
    List FileBytes → FileSystem N × Fd
  | [] => (fs, fd)
  | b :: bs =>
      let (fs, fd) := fs.write fd b (out 0)
      writeAll fs fd (fun i => out (i + 1)) bs

/-- `rename(a, b)`: `b` is replaced; nothing happens if `a` does not exist. -/
def rename [DecidableEq N] (fs : FileSystem N) (a b : N) : FileSystem N :=
  match fs.names a with
  | none => fs
  | some i =>
      { fs with names := fun n => if n = b then some i else if n = a then none else fs.names n }

/-- `unlink(n)`. -/
def unlink [DecidableEq N] (fs : FileSystem N) (n : N) : FileSystem N :=
  { fs with names := Function.update fs.names n none }

/-- Names refer to existing files, no two names to one file. -/
structure WellFormed (fs : FileSystem N) : Prop where
  bound : ∀ n i, fs.names n = some i → i < fs.next
  inj : ∀ n m i, fs.names n = some i → fs.names m = some i → n = m

/-! ## Opening -/

section Opening

variable [DecidableEq N]

theorem names_openCreate_self (fs : FileSystem N) (n : N) :
    (fs.openCreate n).1.names n = some (fs.openCreate n).2.inode := by
  unfold openCreate
  cases h : fs.names n <;> simp [h]

theorem names_openCreate_of_ne (fs : FileSystem N) {n m : N} (hne : m ≠ n) :
    (fs.openCreate n).1.names m = fs.names m := by
  unfold openCreate
  cases h : fs.names n <;> simp [Function.update_of_ne hne]

@[simp] theorem offset_openCreate (fs : FileSystem N) (n : N) :
    (fs.openCreate n).2.offset = 0 := by
  unfold openCreate
  cases h : fs.names n <;> rfl

/-- Opening changes no file that has a name. -/
theorem data_openCreate (fs : FileSystem N) (n : N) {i : Nat} (hi : i < fs.next) :
    (fs.openCreate n).1.data i = fs.data i := by
  unfold openCreate
  cases h : fs.names n with
  | some j => rfl
  | none => exact Function.update_of_ne (by omega) _ _

/-- Opening a file leaves the other files as they are. -/
theorem WellFormed.contents_openCreate {fs : FileSystem N} (h : fs.WellFormed) {n m : N}
    (hne : m ≠ n) : (fs.openCreate n).1.contents m = fs.contents m := by
  rw [contents, contents, names_openCreate_of_ne fs hne]
  cases hm : fs.names m with
  | none => rfl
  | some i => rw [Option.map_some, Option.map_some, data_openCreate fs n (h.bound m i hm)]

theorem le_next_openCreate (fs : FileSystem N) (n : N) : fs.next ≤ (fs.openCreate n).1.next := by
  unfold openCreate
  cases h : fs.names n with
  | some j => exact le_rfl
  | none => exact Nat.le_succ _

/-- The opened file exists. -/
theorem WellFormed.inode_lt_openCreate {fs : FileSystem N} (h : fs.WellFormed) (n : N) :
    (fs.openCreate n).2.inode < (fs.openCreate n).1.next := by
  unfold FileSystem.openCreate
  cases hn : fs.names n with
  | some j => exact h.bound n j hn
  | none => exact Nat.lt_succ_self _

/-- Opening an existing file changes nothing. -/
theorem openCreate_of_some {fs : FileSystem N} {n : N} {i : Nat} (h : fs.names n = some i) :
    fs.openCreate n = (fs, ⟨i, 0⟩) := by
  rw [openCreate, h]

theorem WellFormed.openCreate {fs : FileSystem N} (h : fs.WellFormed) (n : N) :
    (fs.openCreate n).1.WellFormed := by
  unfold FileSystem.openCreate
  cases hn : fs.names n with
  | some j => exact h
  | none =>
      have hother : ∀ m i, Function.update fs.names n (some fs.next) m = some i →
          (m = n ∧ i = fs.next) ∨ (m ≠ n ∧ fs.names m = some i ∧ i < fs.next) := by
        intro m i hm
        by_cases hmn : m = n
        · subst hmn
          rw [Function.update_self] at hm
          exact .inl ⟨rfl, (Option.some.inj hm).symm⟩
        · rw [Function.update_of_ne hmn] at hm
          exact .inr ⟨hmn, hm, h.bound m i hm⟩
      refine ⟨fun m i hm => ?_, fun m m' i hm hm' => ?_⟩
      · show i < fs.next + 1
        rcases hother m i hm with ⟨-, hi⟩ | ⟨-, -, hi⟩ <;> omega
      · rcases hother m i hm with ⟨hn, hi⟩ | ⟨-, hm, hi⟩ <;>
          rcases hother m' i hm' with ⟨hn', hi'⟩ | ⟨-, hm', hi'⟩
        · rw [hn, hn']
        · omega
        · omega
        · exact h.inj m m' i hm hm'

end Opening

/-! ## Writing -/

@[simp] theorem names_write (fs : FileSystem N) (fd : Fd) (bs : FileBytes) (o : WriteOutcome) :
    (fs.write fd bs o).1.names = fs.names := rfl

@[simp] theorem inode_write (fs : FileSystem N) (fd : Fd) (bs : FileBytes) (o : WriteOutcome) :
    (fs.write fd bs o).2.inode = fd.inode := rfl

theorem data_write_of_ne (fs : FileSystem N) (fd : Fd) (bs : FileBytes) (o : WriteOutcome)
    {i : Nat} (hne : i ≠ fd.inode) : (fs.write fd bs o).1.data i = fs.data i :=
  Function.update_of_ne hne _ _

/-- A write leaves the other files as they are. -/
theorem contents_write_of_ne {fs : FileSystem N} {fd : Fd} {n : N}
    (hne : fs.names n ≠ some fd.inode) (bs : FileBytes) (o : WriteOutcome) :
    (fs.write fd bs o).1.contents n = fs.contents n := by
  rw [contents, contents, names_write]
  cases hn : fs.names n with
  | none => rfl
  | some i =>
      have hi : i ≠ fd.inode := fun h => hne (by rw [hn, h])
      rw [Option.map_some, Option.map_some, data_write_of_ne fs fd bs o hi]

theorem WellFormed.write {fs : FileSystem N} (h : fs.WellFormed) (fd : Fd) (bs : FileBytes)
    (o : WriteOutcome) : (fs.write fd bs o).1.WellFormed := ⟨h.bound, h.inj⟩

/-- The file under a descriptor begins with `done`, and the next write
goes right behind it. -/
def Written (fs : FileSystem N) (fd : Fd) (done : FileBytes) : Prop :=
  fd.offset = done.length ∧ ∃ stale, fs.data fd.inode = done ++ stale

theorem written_openCreate [DecidableEq N] (fs : FileSystem N) (n : N) :
    (fs.openCreate n).1.Written (fs.openCreate n).2 [] :=
  ⟨offset_openCreate fs n, _, rfl⟩

/-- Opening a file does not disturb an open descriptor. -/
theorem Written.openCreate [DecidableEq N] {fs : FileSystem N} {fd : Fd} {done : FileBytes}
    (h : fs.Written fd done) (hi : fd.inode < fs.next) (n : N) :
    (fs.openCreate n).1.Written fd done := by
  obtain ⟨hoff, stale, hdata⟩ := h
  exact ⟨hoff, stale, by rw [data_openCreate fs n hi, hdata]⟩

/-- A full write appends its block to what the descriptor has written. -/
theorem Written.write {fs : FileSystem N} {fd : Fd} {done : FileBytes}
    (h : fs.Written fd done) (bs : FileBytes) :
    (fs.write fd bs .full).1.Written (fs.write fd bs .full).2 (done ++ bs) := by
  obtain ⟨hoff, stale, hdata⟩ := h
  refine ⟨by simp [FileSystem.write, WriteOutcome.accepted, hoff], stale.drop bs.length, ?_⟩
  simp only [FileSystem.write, WriteOutcome.accepted, List.take_length, Function.update_self]
  rw [overlay, hdata, hoff, List.take_left' rfl, ← List.drop_drop, List.drop_left' rfl]
  simp

/-- What full writes of several blocks leave behind. -/
theorem Written.writeAll : ∀ (blocks : List FileBytes) (out : Nat → WriteOutcome)
    {fs : FileSystem N} {fd : Fd} {done : FileBytes}, fs.Written fd done →
    (∀ i, i < blocks.length → out i = .full) →
    (fs.writeAll fd out blocks).1.Written (fs.writeAll fd out blocks).2
      (done ++ blocks.flatten) := by
  intro blocks
  induction blocks with
  | nil =>
      intro out fs fd done h _
      simpa [FileSystem.writeAll] using h
  | cons b bs ih =>
      intro out fs fd done h hfull
      have h0 : out 0 = .full := hfull 0 (by simp)
      have hnext := ih (fun i => out (i + 1)) (h.write b)
        fun i hi => hfull (i + 1) (by simpa using hi)
      rw [FileSystem.writeAll, h0, List.flatten_cons, ← List.append_assoc]
      exact hnext

@[simp] theorem names_writeAll (blocks : List FileBytes) (fs : FileSystem N) (fd : Fd)
    (out : Nat → WriteOutcome) : (fs.writeAll fd out blocks).1.names = fs.names := by
  induction blocks generalizing fs fd out with
  | nil => rfl
  | cons b bs ih => rw [writeAll, ih, names_write]

@[simp] theorem inode_writeAll (blocks : List FileBytes) (fs : FileSystem N) (fd : Fd)
    (out : Nat → WriteOutcome) : (fs.writeAll fd out blocks).2.inode = fd.inode := by
  induction blocks generalizing fs fd out with
  | nil => rfl
  | cons b bs ih => rw [writeAll, ih, inode_write]

/-! ## Renaming and removing -/

section Renaming

variable [DecidableEq N]

theorem WellFormed.rename {fs : FileSystem N} (h : fs.WellFormed) (a b : N) :
    (fs.rename a b).WellFormed := by
  unfold FileSystem.rename
  cases ha : fs.names a with
  | none => exact h
  | some j =>
      refine ⟨fun m i hm => ?_, fun m m' i hm hm' => ?_⟩
      · simp only at hm
        split at hm
        · cases hm; exact h.bound a j ha
        · split at hm
          · cases hm
          · exact h.bound m i hm
      · simp only at hm hm'
        split at hm <;> split at hm'
        · next hb hb' => rw [hb, hb']
        · split at hm'
          · cases hm'
          · next hna => cases hm; exact absurd (h.inj m' a j hm' ha) hna
        · split at hm
          · cases hm
          · next hna => cases hm'; exact absurd (h.inj m a j hm ha) hna
        · split at hm
          · cases hm
          · split at hm'
            · cases hm'
            · exact h.inj m m' i hm hm'

theorem names_rename_target {fs : FileSystem N} {a b : N} {i : Nat} (ha : fs.names a = some i) :
    (fs.rename a b).names b = some i := by
  simp [rename, ha]

@[simp] theorem data_rename (fs : FileSystem N) (a b : N) : (fs.rename a b).data = fs.data := by
  unfold rename
  cases ha : fs.names a <;> rfl

@[simp] theorem next_rename (fs : FileSystem N) (a b : N) : (fs.rename a b).next = fs.next := by
  unfold rename
  cases ha : fs.names a <;> rfl

/-! ### Removing a name -/

theorem WellFormed.unlink {fs : FileSystem N} (h : fs.WellFormed) (n : N) :
    (fs.unlink n).WellFormed := by
  have hsome : ∀ m i, (fs.unlink n).names m = some i → fs.names m = some i := by
    intro m i hm
    by_cases hmn : m = n
    · subst hmn; simp [FileSystem.unlink] at hm
    · simpa [FileSystem.unlink, Function.update_of_ne hmn] using hm
  exact ⟨fun m i hm => h.bound m i (hsome m i hm),
    fun m m' i hm hm' => h.inj m m' i (hsome m i hm) (hsome m' i hm')⟩

theorem names_unlink_of_ne {fs : FileSystem N} {n m : N} (hne : m ≠ n) :
    (fs.unlink n).names m = fs.names m := Function.update_of_ne hne _ _

theorem contents_unlink_of_ne {fs : FileSystem N} {n m : N} (hne : m ≠ n) :
    (fs.unlink n).contents m = fs.contents m := by
  rw [contents, contents, names_unlink_of_ne hne]
  rfl

end Renaming

end FileSystem

end VideoMatch.Machine
