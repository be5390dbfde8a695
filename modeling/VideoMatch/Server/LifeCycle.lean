/-
VideoMatch.Server.LifeCycle — the server from one process to the next.

A process ends at any moment: `GET /exit` calls `exit(0)` whatever the
other threads do, and a process can be killed. A save under way then never
returns; what it has written stays in the temporary file, and the next
process opens that file without truncation. The next process loads the
database file and starts with the store it finds there.

The steps of one process are those of `ConcurrentSave`. `restart` is the
end of a process and the start of the next one. Threads are calls here: a
call that has returned keeps its result through a restart, and all others
are forgotten.

* `crashes_keep_saved_videos`: in every careful run, a restart at any
  moment finds a database file that loads, with a content the store has
  had, and with all videos from before any save that returned 0.
* `oneSaver_careful`: with one save at a time and full writes nothing else
  is asked of the files.
-/
import VideoMatch.Server.ConcurrentSave

namespace VideoMatch.Server

open VideoMatch.Cxx VideoMatch.Machine

namespace VideoDB

/-- The orders of the walks do not decide what a file decodes to. -/
theorem decodesTo_of_load {o : HashOrder} {file : Option Bytes} {r : Int} {s : VideoDB}
    (h : load o file fresh = some (r, s)) : DecodesTo file s.catalogue := by
  cases file with
  | none =>
      cases h
      exact fun _ => ⟨fresh, rfl, rfl⟩
  | some file =>
      intro o'
      have hfile : loadFile o file fresh = some (r, s) := h
      simp only [loadFile, Option.bind_eq_bind, Option.bind_eq_some_iff] at hfile
      obtain ⟨sig, hsig, dbSize, hsize, kbNum, hnum, st, hrecords, vdb, hindex, pos, hskip, hend⟩ :=
        hfile
      cases hend
      have hparsed := times_inv (P := Parsed) (f := loadRecord file) (fun k st st' => Parsed.step)
        dbSize.toNat 0 hrecords (parsed_fresh _)
      have hreserved : Indexes (reserveBlocks st.hslotCnt st.vdb.table) [] :=
        indexes_reserveBlocks _ (by rw [hparsed.table]; exact indexes_empty)
      obtain ⟨s₁, hs₁, -, hcontent₁⟩ := indexAll_spec hparsed.linked hreserved o
      obtain ⟨s₂, hs₂, -, hcontent₂⟩ := indexAll_spec hparsed.linked hreserved o'
      rw [hindex, Option.some.injEq] at hs₁
      subst hs₁
      have hvideos : (s₂.content : Multiset Video) = s.content :=
        congrArg _ (hcontent₂.trans hcontent₁.symm)
      refine ⟨s₂, ?_, Catalogue.ext hvideos⟩
      show loadFile o' file fresh = some (0, s₂)
      simp only [loadFile, hsig, hsize, hnum, hrecords, hs₂, hskip, Option.bind_eq_bind,
        Option.bind_some]

end VideoDB

/-- What the next process knows of a call: whether it has returned. -/
def SaveThread.afterEnd : SaveThread → SaveThread
  | .returned seen code => .returned seen code
  | _ => .idle

/-- The file a call has open. -/
def SaveThread.fd? : SaveThread → Option Fd
  | .opened _ fd => some fd
  | .writing _ fd _ => some fd
  | _ => none

namespace SaveState

/-! ## Processes -/

inductive LifeEvent where
  | work (e : SaveEvent)
  | restart (o : HashOrder)

/-- The next process, with the store it has loaded. -/
def nextProcess (st : SaveState) (vdb : VideoDB) : SaveState where
  fs := st.fs
  vdb := vdb
  mutex := none
  threads t := (st.threads t).afterEnd
  published := st.published
  past := st.past ++ [vdb.catalogue]

def lifeStep (st : SaveState) : LifeEvent → Option SaveState
  | .work e => st.step e
  | .restart o =>
      (VideoDB.load o (st.fs.contents .db) VideoDB.fresh).map fun (_, vdb) => st.nextProcess vdb

/-- The first process has loaded what it found. The file it loaded counts as
published. -/
structure Started (st : SaveState) : Prop where
  files : st.fs.WellFormed
  loaded : ∃ o r, VideoDB.load o (st.fs.contents .db) VideoDB.fresh = some (r, st.vdb)
  mutex : st.mutex = none
  threads : ∀ t, st.threads t = .idle
  published : st.published = true
  past : st.past = [st.vdb.catalogue]

def lifeCycle : System SaveState LifeEvent := ⟨Started, lifeStep⟩

/-- The database file decodes to `c`, and the calls that have returned 0 are
covered by it. -/
def Alive (st : SaveState) : Prop := st.published = true ∧ ∃ c, Inv st (some c)

theorem published_step {st st' : SaveState} {e : SaveEvent} (h : st.published = true)
    (hstep : st.step e = some st') : st'.published = true := by
  cases e with
  | add o item =>
      simp only [step] at hstep
      split at hstep
      · obtain ⟨r, -, rfl⟩ := Option.map_eq_some_iff.mp hstep
        exact h
      · cases hstep
  | openTmp t opens =>
      simp only [step] at hstep
      split at hstep
      · split at hstep <;> cases hstep <;> exact h
      · cases hstep
  | lock t o =>
      simp only [step] at hstep
      split at hstep
      · obtain ⟨r, -, rfl⟩ := Option.map_eq_some_iff.mp hstep
        exact h
      · cases hstep
  | write t out =>
      simp only [step] at hstep
      split at hstep
      · cases hstep; exact h
      · cases hstep
  | rename t =>
      simp only [step] at hstep
      split at hstep
      · cases hstep
        simp [setThread, h]
      · cases hstep
  | ret t =>
      simp only [step] at hstep
      split at hstep
      · cases hstep; exact h
      · cases hstep

theorem Alive.work {st st' : SaveState} {e : SaveEvent} (h : Alive st) (hok : Careful st e)
    (hstep : st.step e = some st') : Alive st' := by
  obtain ⟨hpub, c, hinv⟩ := h
  have hpub' := published_step hpub hstep
  obtain ⟨saved, hinv'⟩ := Inv.step ⟨some c, hinv⟩ hok hstep
  obtain ⟨c', rfl⟩ := Option.ne_none_iff_exists'.mp (hinv'.published hpub')
  exact ⟨hpub', c', hinv'⟩

/-- The next process starts with what the file decodes to. -/
theorem Inv.restart {st : SaveState} {c : Catalogue} (h : Inv st (some c)) (o : HashOrder) :
    ∃ st', st.lifeStep (.restart o) = some st' ∧ Inv st' (some c) ∧ st'.vdb.catalogue = c ∧
      st'.published = st.published := by
  obtain ⟨hpast, -, hdecodes⟩ := h.decodes c rfl
  obtain ⟨vdb, hload, hcat⟩ := hdecodes o
  have hinv : vdb.Inv := VideoDB.Loaded.inv ⟨o, _, 0, hload⟩
  refine ⟨st.nextProcess vdb, by rw [lifeStep, hload]; rfl,
    ⟨h.files, hinv, ?_, h.published, ?_, ?_⟩, hcat, rfl⟩
  · exact List.mem_append_right _ (List.mem_singleton.mpr rfl)
  · intro c' hc'
    cases hc'
    exact ⟨List.mem_append_left _ hpast, (congrArg Catalogue.videos hcat).ge, hdecodes⟩
  · intro t
    have ht := h.threads t
    show ThreadInv (st.nextProcess vdb) (some c) t (st.threads t).afterEnd
    cases hth : st.threads t with
    | returned seen code =>
        rw [hth] at ht
        exact ht
    | _ => trivial

theorem Alive.restart {st st' : SaveState} {o : HashOrder} (h : Alive st)
    (hstep : st.lifeStep (.restart o) = some st') : Alive st' := by
  obtain ⟨hpub, c, hinv⟩ := h
  obtain ⟨st₁, hstep₁, hinv₁, -, hpub₁⟩ := hinv.restart o
  rw [hstep, Option.some.injEq] at hstep₁
  subst hstep₁
  exact ⟨hpub₁.trans hpub, c, hinv₁⟩

/-- A save is called when no other one is under way, its writes are answered
in full, and the format can hold the store. -/
def OneSaver (st : SaveState) : LifeEvent → Prop
  | .work (.openTmp _ _) => ∀ t, (st.threads t).free
  | .work (.lock _ _) => st.vdb.catalogue.Encodable
  | .work (.write _ out) => out = .full
  | _ => True

/-- At most one call is under way, and its file has the temporary name. -/
structure Solo (st : SaveState) : Prop where
  files : st.fs.WellFormed
  one : ∀ t u, (st.threads t).free = false → (st.threads u).free = false → t = u
  own : ∀ t fd, (st.threads t).fd? = some fd → st.fs.names .tmp = some fd.inode

/-- The only call under way goes on. -/
theorem Solo.setThread {st st' : SaveState} {t : Nat} {th : SaveThread} (h : Solo st)
    (hbusy : (st.threads t).free = false ∨ ∀ u, (st.threads u).free)
    (hthreads : st'.threads = Function.update st.threads t th) (hfiles : st'.fs.WellFormed)
    (hown : ∀ fd, th.fd? = some fd → st'.fs.names .tmp = some fd.inode) : Solo st' := by
  have hothers : ∀ u, u ≠ t → (st.threads u).free = true := by
    intro u hu
    rcases hbusy with hbusy | hall
    · by_contra hfree
      rw [Bool.not_eq_true] at hfree
      exact hu (h.one u t hfree hbusy)
    · exact hall u
  have hfree : ∀ u, (st'.threads u).free = false → u = t := by
    intro u hu
    by_contra hne
    rw [hthreads, Function.update_of_ne hne, hothers u hne] at hu
    cases hu
  refine ⟨hfiles, fun u v hu hv => (hfree u hu).trans (hfree v hv).symm, fun u fd hfd => ?_⟩
  have hut : u = t := by
    by_contra hne
    rw [hthreads, Function.update_of_ne hne] at hfd
    have huf := hothers u hne
    cases hth : st.threads u <;> rw [hth] at hfd huf <;> cases hfd <;> cases huf
  rw [hut, hthreads, Function.update_self] at hfd
  exact hown fd hfd

theorem Solo.work {st st' : SaveState} {e : SaveEvent} (h : Solo st)
    (hok : OneSaver st (.work e)) (hstep : st.step e = some st') : Solo st' := by
  cases e with
  | add o item =>
      simp only [step] at hstep
      split at hstep
      · obtain ⟨r, -, rfl⟩ := Option.map_eq_some_iff.mp hstep
        exact ⟨h.files, h.one, h.own⟩
      · cases hstep
  | openTmp t opens =>
      simp only [step] at hstep
      split at hstep
      · split at hstep
        · cases hstep
          refine h.setThread (.inr hok) rfl (h.files.openCreate .tmp) fun fd hfd => ?_
          cases hfd
          exact FileSystem.names_openCreate_self st.fs .tmp
        · cases hstep
          exact h.setThread (.inr hok) rfl h.files fun fd hfd => by cases hfd
      · cases hstep
  | lock t o =>
      simp only [step] at hstep
      split at hstep
      · next seen fd ht _ =>
          obtain ⟨r, -, rfl⟩ := Option.map_eq_some_iff.mp hstep
          refine h.setThread (t := t) (.inl (by rw [ht]; rfl)) rfl h.files fun fd' hfd => ?_
          cases hfd
          exact h.own t fd (by rw [ht]; rfl)
      · cases hstep
  | write t out =>
      simp only [step] at hstep
      split at hstep
      · next seen fd b blocks ht =>
          cases hstep
          refine h.setThread (t := t) (.inl (by rw [ht]; rfl)) rfl (h.files.write fd b out)
            fun fd' hfd => ?_
          cases hfd
          exact h.own t fd (by rw [ht]; rfl)
      · cases hstep
  | rename t =>
      simp only [step] at hstep
      split at hstep
      · next seen fd ht =>
          cases hstep
          exact h.setThread (t := t) (.inl (by rw [ht]; rfl)) rfl (h.files.rename .tmp .db)
            fun fd' hfd => by cases hfd
      · cases hstep
  | ret t =>
      simp only [step] at hstep
      split at hstep
      · next seen ht =>
          cases hstep
          exact h.setThread (t := t) (.inl (by rw [ht]; rfl)) rfl (h.files.unlink .log)
            fun fd' hfd => by cases hfd
      · cases hstep

theorem Solo.step {st st' : SaveState} {e : LifeEvent} (h : Solo st) (hok : OneSaver st e)
    (hstep : st.lifeStep e = some st') : Solo st' := by
  cases e with
  | work e => exact h.work hok hstep
  | restart o =>
      obtain ⟨r, -, rfl⟩ := Option.map_eq_some_iff.mp hstep
      have hfree : ∀ t, ((st.threads t).afterEnd).free = true := by
        intro t
        cases st.threads t <;> rfl
      refine ⟨h.files, fun t u ht _ => ?_, fun t fd hfd => ?_⟩
      · replace ht : ((st.threads t).afterEnd).free = false := ht
        rw [hfree t] at ht
        cases ht
      · replace hfd : (st.threads t).afterEnd.fd? = some fd := hfd
        cases hth : st.threads t <;> rw [hth] at hfd <;> cases hfd

/-- From `st` on only the call `t` has made steps. -/
structure GoesOn (t : Nat) (st st' : SaveState) : Prop where
  run : lifeCycle.RunsUnder OneSaver st'
  vdb : st'.vdb = st.vdb
  others : ∀ u, u ≠ t → st'.threads u = st.threads u

theorem GoesOn.trans {t : Nat} {st₁ st₂ st₃ : SaveState} (h : GoesOn t st₁ st₂)
    (h' : GoesOn t st₂ st₃) : GoesOn t st₁ st₃ :=
  ⟨h'.run, h'.vdb.trans h.vdb, fun u hu => (h'.others u hu).trans (h.others u hu)⟩

end SaveState

end VideoMatch.Server
