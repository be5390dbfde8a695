/-
VideoMatch.Server.ConcurrentSave — adds and saves of several threads.

The files have POSIX semantics (`Machine.FileSystem`). The steps of a
`Save` are those of the source:

* `openTmp` opens the temporary file, before the mutex is taken: it
  creates it, or opens the existing one at offset 0 without truncation;
* `lock` takes the mutex, which fixes what will be written;
* `write` hands one block to the system;
* `rename` moves whatever has the temporary name over the database file;
* `ret` removes the log, releases the mutex and returns.

`add` is a whole `Add`, under the mutex.

Between `openTmp` and `lock` another saver may rename the file away. Then
the descriptor is bound to the published file, or to an old one, and the
temporary name is free for a third saver's empty file. The guard `Careful`
excludes the steps where this does harm, and under it every state keeps
the database file good (`saves_good`). Without it the file can be lost
(`three_savers_publish_empty`).
-/
import VideoMatch.Server.Restart

namespace VideoMatch.Server

open VideoMatch.Cxx VideoMatch.Machine

/-- How far the `Save` of a thread has come. `seen` are the videos that
were stored when it was called. -/
inductive SaveThread where
  | idle
  | opened (seen : Multiset Video) (fd : Fd)
  | writing (seen : Multiset Video) (fd : Fd) (blocks : List Bytes)
  | renamed (seen : Multiset Video)
  | returned (seen : Multiset Video) (code : Int)

namespace SaveThread

/-- The thread can call `Save`. -/
def free : SaveThread → Bool
  | .idle => true
  | .returned .. => true
  | _ => false

/-- The thread holds the mutex. -/
def inside : SaveThread → Bool
  | .writing .. => true
  | .renamed .. => true
  | _ => false

end SaveThread

/-- The directory, the store, the holder of the mutex, the threads, whether
a `rename` has succeeded, and the contents the store has had. -/
structure SaveState where
  fs : FileSystem DbFile
  vdb : VideoDB
  mutex : Option Nat
  threads : Nat → SaveThread
  published : Bool
  past : List Catalogue

inductive SaveEvent where
  | add (o : HashOrder) (item : DataItem)
  | openTmp (t : Nat) (opens : Bool)
  | lock (t : Nat) (o : HashOrder)
  | write (t : Nat) (out : WriteOutcome)
  | rename (t : Nat)
  | ret (t : Nat)

namespace SaveState

/-- Thread `t` goes on as `th`. -/
def setThread (st : SaveState) (t : Nat) (th : SaveThread) : SaveState :=
  { st with threads := Function.update st.threads t th }

/-- One step; `none` if it cannot happen, or if it faults. -/
def step (st : SaveState) : SaveEvent → Option SaveState
  | .add o item =>
      match st.mutex with
      | none => (VideoDB.add o st.vdb item).map fun (_, vdb) =>
          { st with vdb := vdb, past := st.past ++ [vdb.catalogue] }
      | some _ => none
  | .openTmp t opens =>
      if (st.threads t).free then
        if opens then
          let (fs, fd) := st.fs.openCreate .tmp
          some ({ st with fs := fs }.setThread t (.opened st.vdb.catalogue.videos fd))
        else some (st.setThread t (.returned st.vdb.catalogue.videos (-1)))
      else none
  | .lock t o =>
      match st.threads t, st.mutex with
      | .opened seen fd, none => (VideoDB.saveBlocks o st.vdb).map fun (blocks, vdb) =>
          { st with vdb := vdb, mutex := some t }.setThread t (.writing seen fd blocks)
      | _, _ => none
  | .write t out =>
      match st.threads t with
      | .writing seen fd (b :: blocks) =>
          let (fs, fd) := st.fs.write fd b out
          some ({ st with fs := fs }.setThread t (.writing seen fd blocks))
      | _ => none
  | .rename t =>
      match st.threads t with
      | .writing seen _ [] =>
          some ({ st with
            fs := st.fs.rename .tmp .db
            published := st.published || (st.fs.names .tmp).isSome }.setThread t (.renamed seen))
      | _ => none
  | .ret t =>
      match st.threads t with
      | .renamed seen =>
          some ({ st with fs := st.fs.unlink .log, mutex := none }.setThread t (.returned seen 0))
      | _ => none

/-- A server after its start, no save under way. -/
structure Initial (st : SaveState) : Prop where
  files : st.fs.WellFormed
  vdb : st.vdb.Reachable
  mutex : st.mutex = none
  threads : ∀ t, st.threads t = .idle
  published : st.published = false
  past : st.past = [st.vdb.catalogue]

/-- The interleavings of adds and saves. -/
def system : System SaveState SaveEvent := ⟨Initial, step⟩

/-- After the first rename the database file decodes to what the store has
held at some moment; and when a save has returned 0, to something that has
all videos from before its call. -/
def Good (st : SaveState) : Prop :=
  (st.published = true → ∃ c ∈ st.past, VideoDB.DecodesTo (st.fs.contents .db) c) ∧
  ∀ t seen, st.threads t = .returned seen 0 →
    ∃ c ∈ st.past, VideoDB.DecodesTo (st.fs.contents .db) c ∧ seen ≤ c.videos

/-- The steps that do no harm. A saver takes the mutex when the format can
hold the store. Its writes are answered in full, and one that goes to the
published file is the last one or changes nothing there. When it renames,
no other saver's file has the temporary name. -/
def Careful (st : SaveState) : SaveEvent → Prop
  | .lock _ _ => st.vdb.catalogue.Encodable
  | .write t out => out = .full ∧
      ∀ seen fd b blocks, st.threads t = .writing seen fd (b :: blocks) →
        st.fs.names .db = some fd.inode →
        blocks = [] ∨ (st.fs.write fd b .full).1.data fd.inode = st.fs.data fd.inode
  | .rename t => ∀ seen fd, st.threads t = .writing seen fd [] →
      st.fs.names .tmp = none ∨ st.fs.names .tmp = some fd.inode
  | _ => True

/-! ## The invariant -/

/-- The database file is known to have these videos. -/
def Covers (saved : Option Catalogue) (seen : Multiset Video) : Prop :=
  ∃ c, saved = some c ∧ seen ≤ c.videos

/-- What holds of thread `t`. A saver whose file has lost the temporary
name need not publish anything: the saver that took the name has. -/
def ThreadInv (st : SaveState) (saved : Option Catalogue) (t : Nat) : SaveThread → Prop
  | .idle => True
  | .opened seen fd =>
      fd.offset = 0 ∧ fd.inode < st.fs.next ∧ seen ≤ st.vdb.catalogue.videos ∧
        (st.fs.names .tmp ≠ some fd.inode → Covers saved seen)
  | .writing seen fd blocks =>
      st.mutex = some t ∧ fd.inode < st.fs.next ∧ seen ≤ st.vdb.catalogue.videos ∧
        (st.fs.names .tmp ≠ some fd.inode → Covers saved seen) ∧
        ∃ done, st.fs.Written fd done ∧ ∀ stale,
          VideoDB.DecodesTo (some (done ++ blocks.flatten ++ stale)) st.vdb.catalogue
  | .renamed seen => st.mutex = some t ∧ Covers saved seen
  | .returned seen code => code = 0 → Covers saved seen

/-- The invariant, with the catalogue that the database file decodes to. -/
structure Inv (st : SaveState) (saved : Option Catalogue) : Prop where
  files : st.fs.WellFormed
  vdb : st.vdb.Inv
  now : st.vdb.catalogue ∈ st.past
  published : st.published = true → saved ≠ none
  decodes : ∀ c, saved = some c → c ∈ st.past ∧ c.videos ≤ st.vdb.catalogue.videos ∧
    VideoDB.DecodesTo (st.fs.contents .db) c
  threads : ∀ t, ThreadInv st saved t (st.threads t)

/-- A thread inside the critical section holds the mutex. -/
theorem ThreadInv.mutex_of_inside {st : SaveState} {saved : Option Catalogue} {t : Nat}
    {th : SaveThread} (h : ThreadInv st saved t th) (hin : th.inside = true) :
    st.mutex = some t := by
  cases th with
  | writing seen fd blocks => exact h.1
  | renamed seen => exact h.1
  | _ => simp [SaveThread.inside] at hin

/-- What the steps of others keep of a thread outside the critical
section. -/
theorem ThreadInv.outside {st st' : SaveState} {saved saved' : Option Catalogue} {t : Nat}
    {th : SaveThread} (h : ThreadInv st saved t th) (hout : th.inside = false)
    (hnext : st.fs.next ≤ st'.fs.next)
    (hvideos : st.vdb.catalogue.videos ≤ st'.vdb.catalogue.videos)
    (hcovers : ∀ seen, Covers saved seen → Covers saved' seen)
    (htmp : (∀ i < st.fs.next, st.fs.names .tmp = some i → st'.fs.names .tmp = some i) ∨
      ∀ seen, seen ≤ st.vdb.catalogue.videos → Covers saved' seen) :
    ThreadInv st' saved' t th := by
  cases th with
  | idle => trivial
  | opened seen fd =>
      obtain ⟨hoff, hino, hseen, hlost⟩ := h
      refine ⟨hoff, hino.trans_le hnext, hseen.trans hvideos, fun hne => ?_⟩
      rcases htmp with hkeep | hall
      · exact hcovers seen (hlost fun htmp => hne (hkeep fd.inode hino htmp))
      · exact hall seen hseen
  | returned seen code => exact fun hcode => hcovers seen (h hcode)
  | _ => simp [SaveThread.inside] at hout

/-- A thread that does not hold the mutex is outside. -/
theorem Inv.others {st st' : SaveState} {saved saved' : Option Catalogue} (h : Inv st saved)
    {u : Nat} (hu : st.mutex ≠ some u) (hnext : st.fs.next ≤ st'.fs.next)
    (hvideos : st.vdb.catalogue.videos ≤ st'.vdb.catalogue.videos)
    (hcovers : ∀ seen, Covers saved seen → Covers saved' seen)
    (htmp : (∀ i < st.fs.next, st.fs.names .tmp = some i → st'.fs.names .tmp = some i) ∨
      ∀ seen, seen ≤ st.vdb.catalogue.videos → Covers saved' seen) :
    ThreadInv st' saved' u (st.threads u) := by
  have hout : (st.threads u).inside = false := by
    by_contra hin
    rw [Bool.not_eq_false] at hin
    exact hu ((h.threads u).mutex_of_inside hin)
  exact (h.threads u).outside hout hnext hvideos hcovers htmp

/-- One thread moves, the others stay where they are. -/
theorem threadInv_update {st st' : SaveState} {saved' : Option Catalogue} {t : Nat}
    {th : SaveThread} (hthreads : st'.threads = Function.update st.threads t th)
    (hself : ThreadInv st' saved' t th)
    (hothers : ∀ u, u ≠ t → ThreadInv st' saved' u (st.threads u)) (u : Nat) :
    ThreadInv st' saved' u (st'.threads u) := by
  rw [hthreads]
  by_cases hu : u = t
  · subst hu
    rw [Function.update_self]
    exact hself
  · rw [Function.update_of_ne hu]
    exact hothers u hu

/-! ## The steps -/

theorem Inv.add {st : SaveState} {saved : Option Catalogue} (h : Inv st saved)
    (hfree : st.mutex = none) {o : HashOrder} {item : DataItem} {r : Int} {vdb : VideoDB}
    (hadd : VideoDB.add o st.vdb item = some (r, vdb)) :
    Inv { st with vdb := vdb, past := st.past ++ [vdb.catalogue] } saved := by
  obtain ⟨hinv, hle⟩ := VideoDB.add_keeps h.vdb hadd
  refine ⟨h.files, hinv, List.mem_append_right _ (List.mem_singleton.mpr rfl), h.published,
    fun c hc => ?_, fun u => ?_⟩
  · obtain ⟨hpast, hold, hdecodes⟩ := h.decodes c hc
    exact ⟨List.mem_append_left _ hpast, hold.trans hle, hdecodes⟩
  · exact h.others (by simp [hfree]) le_rfl hle (fun _ hc => hc) (.inl fun _ _ hi => hi)

theorem Inv.openTmp {st : SaveState} {saved : Option Catalogue} (h : Inv st saved) (t : Nat) :
    Inv ({ st with fs := (st.fs.openCreate .tmp).1 }.setThread t
      (.opened st.vdb.catalogue.videos (st.fs.openCreate .tmp).2)) saved := by
  have hkeep : ∀ i < st.fs.next, st.fs.names .tmp = some i →
      (st.fs.openCreate .tmp).1.names .tmp = some i := by
    intro i _ hi
    rw [FileSystem.openCreate_of_some hi]
    exact hi
  refine ⟨h.files.openCreate .tmp, h.vdb, h.now, h.published, fun c hc => ?_,
    threadInv_update rfl ⟨FileSystem.offset_openCreate _ _, h.files.inode_lt_openCreate .tmp,
      le_refl st.vdb.catalogue.videos,
      fun hne => absurd (FileSystem.names_openCreate_self st.fs .tmp) hne⟩ fun u _ => ?_⟩
  · obtain ⟨hpast, hle, hdecodes⟩ := h.decodes c hc
    refine ⟨hpast, hle, ?_⟩
    show VideoDB.DecodesTo ((st.fs.openCreate .tmp).1.contents .db) c
    rwa [h.files.contents_openCreate (by decide)]
  · have hu := h.threads u
    cases hth : st.threads u with
    | writing seen fd blocks =>
        rw [hth] at hu
        obtain ⟨hmutex, hino, hseen, hlost, done, hwritten, hdecodes⟩ := hu
        exact ⟨hmutex, hino.trans_le (FileSystem.le_next_openCreate _ _), hseen,
          fun hne => hlost fun htmp => hne (hkeep fd.inode hino htmp),
          done, hwritten.openCreate hino .tmp, hdecodes⟩
    | renamed seen =>
        rw [hth] at hu
        exact hu
    | _ =>
        rw [hth] at hu
        exact hu.outside rfl (FileSystem.le_next_openCreate _ _)
          (le_refl st.vdb.catalogue.videos) (fun _ hc => hc) (.inl hkeep)

/-- An `open` that fails ends the save with -1. -/
theorem Inv.openFails {st : SaveState} {saved : Option Catalogue} (h : Inv st saved) (t : Nat) :
    Inv (st.setThread t (.returned st.vdb.catalogue.videos (-1))) saved :=
  ⟨h.files, h.vdb, h.now, h.published, h.decodes,
    threadInv_update rfl (fun hcode => absurd hcode (by decide)) fun u _ => by
      have hu := h.threads u
      cases hth : st.threads u <;> rw [hth] at hu <;> exact hu⟩

theorem Inv.lock {st : SaveState} {saved : Option Catalogue} (h : Inv st saved) {t : Nat}
    {seen : Multiset Video} {fd : Fd} (ht : st.threads t = .opened seen fd)
    (hfree : st.mutex = none) (henc : st.vdb.catalogue.Encodable) {o : HashOrder}
    {r : List Bytes × VideoDB} (hblocks : VideoDB.saveBlocks o st.vdb = some r) :
    Inv ({ st with vdb := r.2, mutex := some t }.setThread t (.writing seen fd r.1)) saved := by
  have hth := h.threads t
  rw [ht] at hth
  obtain ⟨hoff, hino, hseen, hlost⟩ := hth
  have hlen := (VideoDB.saveBlocks_isSome_iff h.vdb o).mp (by rw [hblocks]; rfl)
  obtain ⟨hflat, -, hsame⟩ := VideoDB.saveBlocks_spec h.vdb hblocks
  rw [hsame]
  refine ⟨h.files, h.vdb, h.now, h.published, h.decodes,
    threadInv_update rfl ⟨rfl, hino, hseen, hlost, [], ⟨hoff, _, rfl⟩, fun stale => ?_⟩
      fun u hu => ?_⟩
  · rw [List.nil_append, hflat]
    exact VideoDB.decodesTo_encode o henc hlen stale
  · exact h.others (by simp [hfree]) le_rfl (le_refl st.vdb.catalogue.videos) (fun _ hc => hc)
      (.inl fun _ _ hi => hi)

/-- A full write goes behind what was written, and what is still to come
completes the encoding. -/
theorem Inv.written {st : SaveState} {saved : Option Catalogue} (h : Inv st saved) {t : Nat}
    {seen : Multiset Video} {fd : Fd} {b : Bytes} {blocks : List Bytes}
    (ht : st.threads t = .writing seen fd (b :: blocks)) :
    ∃ done, (st.fs.write fd b .full).1.Written (st.fs.write fd b .full).2 done ∧
      ∀ stale, VideoDB.DecodesTo (some (done ++ blocks.flatten ++ stale)) st.vdb.catalogue := by
  have hth := h.threads t
  rw [ht] at hth
  obtain ⟨-, -, -, -, done, hwritten, hdecodes⟩ := hth
  refine ⟨done ++ b, hwritten.write b, fun stale => ?_⟩
  rw [List.append_assoc done]
  exact hdecodes stale

/-- A full write keeps the invariant for whatever the database file decodes
to after it. -/
theorem Inv.write_of_decodes {st : SaveState} {saved saved' : Option Catalogue} (h : Inv st saved)
    {t : Nat} {seen : Multiset Video} {fd : Fd} {b : Bytes} {blocks : List Bytes}
    (ht : st.threads t = .writing seen fd (b :: blocks))
    (hpub : st.published = true → saved' ≠ none)
    (hdec : ∀ c, saved' = some c → c ∈ st.past ∧ c.videos ≤ st.vdb.catalogue.videos ∧
      VideoDB.DecodesTo ((st.fs.write fd b .full).1.contents .db) c)
    (hcovers : ∀ seen, Covers saved seen → Covers saved' seen) :
    Inv ({ st with fs := (st.fs.write fd b .full).1 }.setThread t
      (.writing seen (st.fs.write fd b .full).2 blocks)) saved' := by
  have hwritten := h.written ht
  have hth := h.threads t
  rw [ht] at hth
  obtain ⟨hmutex, hino, hseen, hlost, -⟩ := hth
  refine ⟨h.files.write fd b .full, h.vdb, h.now, hpub, hdec,
    threadInv_update rfl ⟨hmutex, hino, hseen, fun hne => hcovers seen (hlost hne), hwritten⟩
      fun u hu => ?_⟩
  exact h.others (by simp [hmutex, Ne.symm hu]) le_rfl (le_refl st.vdb.catalogue.videos) hcovers
    (.inl fun _ _ hi => hi)

/-- If a full write is the last one into the published file, that file now
has the videos of the store. Otherwise it decodes to what it did. -/
theorem Inv.write {st : SaveState} {saved : Option Catalogue} (h : Inv st saved) {t : Nat}
    {seen : Multiset Video} {fd : Fd} {b : Bytes} {blocks : List Bytes}
    (ht : st.threads t = .writing seen fd (b :: blocks))
    (hlive : st.fs.names .db = some fd.inode →
      blocks = [] ∨ (st.fs.write fd b .full).1.data fd.inode = st.fs.data fd.inode) :
    ∃ saved', Inv ({ st with fs := (st.fs.write fd b .full).1 }.setThread t
      (.writing seen (st.fs.write fd b .full).2 blocks)) saved' := by
  by_cases hdb : st.fs.names .db = some fd.inode
  · rcases hlive hdb with hlast | hsame
    · refine ⟨some st.vdb.catalogue, h.write_of_decodes ht (fun _ => Option.some_ne_none _) ?_ ?_⟩
      · intro c hc
        cases hc
        obtain ⟨done, ⟨-, stale, hdata⟩, hdecodes⟩ := h.written ht
        have hfile := hdecodes stale
        rw [hlast, List.flatten_nil, List.append_nil, ← hdata] at hfile
        refine ⟨h.now, le_rfl, ?_⟩
        rw [FileSystem.contents, FileSystem.names_write, hdb]
        exact hfile
      · intro seen hseen
        obtain ⟨c, hc, hle⟩ := hseen
        exact ⟨st.vdb.catalogue, rfl, hle.trans (h.decodes c hc).2.1⟩
    · refine ⟨saved, h.write_of_decodes ht h.published (fun c hc => ?_) fun _ hc => hc⟩
      obtain ⟨hpast, hle, hold⟩ := h.decodes c hc
      refine ⟨hpast, hle, ?_⟩
      rw [FileSystem.contents, hdb] at hold
      rw [FileSystem.contents, FileSystem.names_write, hdb]
      rwa [Option.map_some, hsame]
  · refine ⟨saved, h.write_of_decodes ht h.published (fun c hc => ?_) fun _ hc => hc⟩
    obtain ⟨hpast, hle, hold⟩ := h.decodes c hc
    exact ⟨hpast, hle, by rwa [FileSystem.contents_write_of_ne hdb]⟩

/-- A rename publishes the saver's own file, or finds nothing to rename. In
the second case another saver has published what was asked for. -/
theorem Inv.rename {st : SaveState} {saved : Option Catalogue} (h : Inv st saved) {t : Nat}
    {seen : Multiset Video} {fd : Fd} (ht : st.threads t = .writing seen fd [])
    (hown : st.fs.names .tmp = none ∨ st.fs.names .tmp = some fd.inode) :
    ∃ saved', Inv ({ st with
      fs := st.fs.rename .tmp .db
      published := st.published || (st.fs.names .tmp).isSome }.setThread t (.renamed seen))
        saved' := by
  have hth := h.threads t
  rw [ht] at hth
  obtain ⟨hmutex, hino, hseen, hlost, done, ⟨-, stale, hdata⟩, hdecodes⟩ := hth
  rcases hown with hnone | htmp
  · have hsame : st.fs.rename .tmp .db = st.fs := by rw [FileSystem.rename, hnone]
    refine ⟨saved, ?_⟩
    rw [hsame, hnone, Option.isSome_none, Bool.or_false]
    refine ⟨h.files, h.vdb, h.now, h.published, h.decodes,
      threadInv_update rfl ⟨hmutex, hlost (by rw [hnone]; exact (Option.some_ne_none _).symm)⟩
        fun u hu => ?_⟩
    exact h.others (by simp [hmutex, Ne.symm hu]) le_rfl (le_refl st.vdb.catalogue.videos)
      (fun _ hc => hc) (.inl fun _ _ hi => hi)
  · have hall : ∀ seen, seen ≤ st.vdb.catalogue.videos → Covers (some st.vdb.catalogue) seen :=
      fun seen hle => ⟨_, rfl, hle⟩
    refine ⟨some st.vdb.catalogue, h.files.rename .tmp .db, h.vdb, h.now,
      fun _ => Option.some_ne_none _, ?_, threadInv_update rfl ⟨hmutex, hall seen hseen⟩
        fun u hu => ?_⟩
    · intro c hc
      cases hc
      refine ⟨h.now, le_rfl, ?_⟩
      have hfile := hdecodes stale
      rw [List.flatten_nil, List.append_nil, ← hdata] at hfile
      show VideoDB.DecodesTo ((st.fs.rename .tmp .db).contents .db) _
      rw [FileSystem.contents, FileSystem.names_rename_target htmp, FileSystem.data_rename]
      exact hfile
    · refine h.others (by simp [hmutex, Ne.symm hu]) (FileSystem.next_rename st.fs .tmp .db).ge
        (le_refl st.vdb.catalogue.videos) (fun seen hseen => ?_) (.inr hall)
      obtain ⟨c, hc, hle⟩ := hseen
      exact hall seen (hle.trans (h.decodes c hc).2.1)

theorem Inv.ret {st : SaveState} {saved : Option Catalogue} (h : Inv st saved) {t : Nat}
    {seen : Multiset Video} (ht : st.threads t = .renamed seen) :
    Inv ({ st with fs := st.fs.unlink .log, mutex := none }.setThread t (.returned seen 0))
      saved := by
  have hth := h.threads t
  rw [ht] at hth
  obtain ⟨hmutex, hcovers⟩ := hth
  refine ⟨h.files.unlink .log, h.vdb, h.now, h.published, fun c hc => ?_,
    threadInv_update rfl (fun _ => hcovers) fun u hu => ?_⟩
  · obtain ⟨hpast, hle, hold⟩ := h.decodes c hc
    refine ⟨hpast, hle, ?_⟩
    show VideoDB.DecodesTo ((st.fs.unlink .log).contents .db) c
    rwa [FileSystem.contents_unlink_of_ne (by decide)]
  · refine h.others (by simp [hmutex, Ne.symm hu]) le_rfl (le_refl st.vdb.catalogue.videos)
      (fun _ hc => hc) (.inl fun i _ hi => ?_)
    show (st.fs.unlink .log).names .tmp = some i
    rwa [FileSystem.names_unlink_of_ne (by decide)]

/-- Every careful step keeps the invariant. -/
theorem Inv.step {st st' : SaveState} {e : SaveEvent} (h : ∃ saved, Inv st saved)
    (hok : Careful st e) (hstep : SaveState.step st e = some st') : ∃ saved, Inv st' saved := by
  obtain ⟨saved, h⟩ := h
  cases e with
  | add o item =>
      cases hmutex : st.mutex with
      | some t => simp [SaveState.step, hmutex] at hstep
      | none =>
          simp only [SaveState.step, hmutex] at hstep
          obtain ⟨⟨r, vdb⟩, hadd, rfl⟩ := Option.map_eq_some_iff.mp hstep
          have hnext := h.add hmutex hadd
          rw [hmutex] at hnext
          exact ⟨saved, hnext⟩
  | openTmp t opens =>
      cases hfree : (st.threads t).free with
      | false => simp [SaveState.step, hfree] at hstep
      | true =>
          cases opens with
          | true =>
              simp only [SaveState.step, hfree, if_true, Option.some.injEq] at hstep
              exact ⟨saved, hstep ▸ h.openTmp t⟩
          | false =>
              simp only [SaveState.step, hfree, if_true, Bool.false_eq_true, if_false,
                Option.some.injEq] at hstep
              exact ⟨saved, hstep ▸ h.openFails t⟩
  | lock t o =>
      cases ht : st.threads t with
      | opened seen fd =>
          cases hmutex : st.mutex with
          | some u => simp [SaveState.step, ht, hmutex] at hstep
          | none =>
              simp only [SaveState.step, ht, hmutex] at hstep
              obtain ⟨r, hblocks, rfl⟩ := Option.map_eq_some_iff.mp hstep
              exact ⟨saved, h.lock ht hmutex hok hblocks⟩
      | _ => simp [SaveState.step, ht] at hstep
  | write t out =>
      cases ht : st.threads t with
      | writing seen fd blocks =>
          cases blocks with
          | nil => simp [SaveState.step, ht] at hstep
          | cons b blocks =>
              obtain ⟨rfl, hlive⟩ := hok
              simp only [SaveState.step, ht, Option.some.injEq] at hstep
              exact hstep ▸ h.write ht (hlive seen fd b blocks ht)
      | _ => simp [SaveState.step, ht] at hstep
  | rename t =>
      cases ht : st.threads t with
      | writing seen fd blocks =>
          cases blocks with
          | cons b blocks => simp [SaveState.step, ht] at hstep
          | nil =>
              simp only [SaveState.step, ht, Option.some.injEq] at hstep
              exact hstep ▸ h.rename ht (hok seen fd ht)
      | _ => simp [SaveState.step, ht] at hstep
  | ret t =>
      cases ht : st.threads t with
      | renamed seen =>
          simp only [SaveState.step, ht, Option.some.injEq] at hstep
          exact ⟨saved, hstep ▸ h.ret ht⟩
      | _ => simp [SaveState.step, ht] at hstep

theorem Inv.of_initial {st : SaveState} (h : Initial st) : Inv st none where
  files := h.files
  vdb := h.vdb.inv
  now := by rw [h.past]; exact List.mem_singleton.mpr rfl
  published hp := by rw [h.published] at hp; cases hp
  decodes c hc := by cases hc
  threads t := by rw [h.threads t]; trivial

/-- The invariant says what is wanted. -/
theorem Inv.good {st : SaveState} {saved : Option Catalogue} (h : Inv st saved) : Good st := by
  constructor
  · intro hpub
    obtain ⟨c, hc⟩ := Option.ne_none_iff_exists'.mp (h.published hpub)
    obtain ⟨hpast, -, hdecodes⟩ := h.decodes c hc
    exact ⟨c, hpast, hdecodes⟩
  · intro t seen ht
    have hth := h.threads t
    rw [ht] at hth
    obtain ⟨c, hc, hseen⟩ := hth rfl
    obtain ⟨hpast, -, hdecodes⟩ := h.decodes c hc
    exact ⟨c, hpast, hdecodes, hseen⟩

/-- In every run whose steps are all careful, the database file is good
after every step. -/
theorem saves_good {st : SaveState} (h : system.RunsUnder Careful st) : Good st := by
  obtain ⟨saved, hinv⟩ := h.invariant (P := fun st => ∃ saved, Inv st saved)
    (fun _ h0 => ⟨none, Inv.of_initial h0⟩) fun _ _ _ hs hok hstep => Inv.step hs hok hstep
  exact hinv.good

/-! ## Runs -/

/-- A new server in an empty directory. -/
def newServer : SaveState where
  fs := ⟨fun _ => none, fun _ => [], 0⟩
  vdb := VideoDB.fresh
  mutex := none
  threads := fun _ => .idle
  published := false
  past := [VideoDB.fresh.catalogue]

theorem initial_newServer : Initial newServer :=
  ⟨⟨nofun, nofun⟩, VideoDB.reachable_fresh, rfl, fun _ => rfl, rfl, rfl⟩

theorem careful_step {st st' : SaveState} (h : system.RunsUnder Careful st) (e : SaveEvent)
    (hok : Careful st e) (hstep : step st e = some st') : system.RunsUnder Careful st' :=
  .step h hok hstep

/-- Savers 0 and 1 open the same file. Saver 0 publishes it, and saver 1
writes the one block of its save into the published file. -/
def twoSavers : List SaveEvent :=
  [.openTmp 0 true, .openTmp 1 true, .lock 0 default, .write 0 .full, .rename 0, .ret 0,
    .lock 1 default, .write 1 .full, .rename 1, .ret 1]

theorem saves_good_two_savers :
    ∃ st, system.run newServer twoSavers = some st ∧ Good st := by
  have henc : VideoDB.fresh.catalogue.Encodable :=
    ⟨by decide, nofun, nofun, fun _ => Nat.two_pow_pos 31⟩
  have h₀ : system.RunsUnder Careful newServer := .init initial_newServer
  have h₁ := careful_step h₀ (.openTmp 0 true) trivial rfl
  have h₂ := careful_step h₁ (.openTmp 1 true) trivial rfl
  have h₃ := careful_step h₂ (.lock 0 default) henc rfl
  have h₄ := careful_step h₃ (.write 0 .full) ⟨rfl, fun _ _ _ _ _ hdb => nomatch hdb⟩ rfl
  have h₅ := careful_step h₄ (.rename 0) (fun _ _ ht => .inr (by cases ht; rfl)) rfl
  have h₆ := careful_step h₅ (.ret 0) trivial rfl
  have h₇ := careful_step h₆ (.lock 1 default) henc rfl
  have h₈ := careful_step h₇ (.write 1 .full) ⟨rfl, fun _ _ _ _ ht _ => .inl (by cases ht; rfl)⟩ rfl
  have h₉ := careful_step h₈ (.rename 1) (fun _ _ _ => .inl rfl) rfl
  exact ⟨_, rfl, saves_good (careful_step h₉ (.ret 1) trivial rfl)⟩

/-- Savers 0 and 1 open the same file. Saver 0 publishes it; saver 2 creates
the next temporary file; saver 1 writes into the published file and then
renames the file of saver 2, which nobody has written to. -/
def threeSavers : List SaveEvent :=
  [.openTmp 0 true, .openTmp 1 true, .lock 0 default, .write 0 .full, .rename 0, .ret 0,
    .openTmp 2 true, .lock 1 default, .write 1 .full, .rename 1]

/-- The run publishes an empty file. -/
theorem three_savers_publish_empty :
    ∃ st, system.run newServer threeSavers = some st ∧ system.Reachable st ∧
      st.published = true ∧ st.fs.contents .db = some [] ∧ ¬ Good st := by
  have hrun : (system.run newServer threeSavers).map
      (fun st => (st.published, st.fs.contents .db)) = some (true, some []) := by decide
  obtain ⟨st, hst, hend⟩ := Option.map_eq_some_iff.mp hrun
  obtain ⟨hpub, hempty⟩ := Prod.mk.inj hend
  refine ⟨st, hst, System.reachable_of_run _ (.init initial_newServer) hst, hpub, hempty,
    fun hgood => ?_⟩
  obtain ⟨c, -, hdecodes⟩ := hgood.1 hpub
  obtain ⟨s', hload, -⟩ := hdecodes default
  rw [hempty] at hload
  cases hload

end SaveState

end VideoMatch.Server
