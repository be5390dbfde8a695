/-
VideoMatch.Machine.Message — messages of lines and a counted body.

A message is a first line, fields, an empty line and a body. One of the
fields says how long the body is, so a message can be followed by anything.
A `Layout` is what such a format fixes: the mark at the end of a line, the
mark between a key and its value, and how the length is found.

`read` looks for the marks in the bytes that come in, and gives the message
and what follows it. A key or a line that can be cut at an earlier mark is
read as something else. If there is none, what has been written is read
exactly if the length is the right one (`read_write_iff`). If something else
of the same length stands where the empty line should be, it is not read as
it was meant (`read_writeWith_iff`).
-/
import VideoMatch.Cxx.Search

namespace VideoMatch.Machine

open VideoMatch.Cxx

variable {α : Type*} [DecidableEq α]

/-! ## Cutting at a mark -/

/-- What is in front of the first occurrence of `pat`, and what is behind
it. -/
def cut (pat s : List α) : Option (List α × List α) :=
  (findAt pat s).map fun i => (s.take i, s.drop (i + pat.length))

/-- The mark `pat` behind `s` is the first one. -/
def Ends (pat s : List α) : Prop := findAt pat (s ++ pat) = some s.length

instance (pat s : List α) : Decidable (Ends pat s) := inferInstanceAs (Decidable (_ = _))

section

variable {pat s : List α}

theorem Ends.cut (h : Ends pat s) (t : List α) : cut pat (s ++ (pat ++ t)) = some (s, t) := by
  have hfound : findAt pat (s ++ (pat ++ t)) = some s.length := by
    rw [← List.append_assoc]
    exact findAt_append t h
  have hdrop : (s ++ (pat ++ t)).drop (s.length + pat.length) = t := by
    rw [← List.append_assoc, ← List.length_append, List.drop_left]
  rw [Machine.cut, hfound, Option.map_some, List.take_left, hdrop]

theorem ends_nil (pat : List α) : Ends pat [] := by
  cases pat with
  | nil => rfl
  | cons a pat => simp [Ends, findAt]

/-- A mark whose first element does not occur in `s`. -/
theorem ends_of_not_mem {a : α} (h : a ∉ s) (pat : List α) : Ends (a :: pat) s := by
  have hself : findAt (a :: pat) (a :: pat) = some 0 := ends_nil (a :: pat)
  rw [Ends, findAt_skip a pat (a :: pat) h, hself, Option.map_some, Nat.zero_add]

end

/-! ## Lines -/

/-- The lines up to the first empty one, and what is behind it. Each line
costs one unit of fuel. -/
def readLines (eol : List α) : Nat → List α → Option (List (List α) × List α)
  | 0, _ => none
  | n + 1, s => do
      let (line, s) ← cut eol s
      if line = [] then some ([], s)
      else
        let (lines, s) ← readLines eol n s
        some (line :: lines, s)

/-- Lines that are read, and then others. -/
theorem readLines_append (eol t : List α) (n : Nat) : ∀ (lines : List (List α)),
    (∀ line ∈ lines, line ≠ [] ∧ Ends eol line) →
    readLines eol (lines.length + n) (lines.flatMap (fun line => line ++ eol) ++ t)
      = (readLines eol n t).map fun rest => (lines ++ rest.1, rest.2) := by
  intro lines
  induction lines with
  | nil =>
      intro _
      simp
  | cons line lines ih =>
      intro hlines
      obtain ⟨hne, hends⟩ := hlines line (by simp)
      have hrest := ih fun l hl => hlines l (by simp [hl])
      have hcut := hends.cut (lines.flatMap (fun line => line ++ eol) ++ t)
      have hfuel : (line :: lines).length + n = lines.length + n + 1 := by
        rw [List.length_cons]
        omega
      simp only [List.flatMap_cons, List.append_assoc] at hcut ⊢
      rw [hfuel, readLines, hcut]
      simp only [Option.bind_eq_bind, Option.bind_some, if_neg hne, hrest]
      cases readLines eol n t <;> rfl

/-- The reader stops in front of the first line only if this line is empty. -/
theorem prefix_of_readLines_nil {eol s t : List α} (heol : eol ≠ []) {n : Nat}
    (h : readLines eol n s = some ([], t)) : eol <+: s := by
  cases n with
  | zero => cases h
  | succ n =>
      rw [readLines, Option.bind_eq_bind, Option.bind_eq_some_iff] at h
      obtain ⟨⟨line, rest⟩, hcut, h⟩ := h
      by_cases hline : line = []
      · rw [cut, Option.map_eq_some_iff] at hcut
        obtain ⟨i, hi, heq⟩ := hcut
        rw [Prod.mk.injEq, hline, List.take_eq_nil_iff] at heq
        have hlen := findAt_length hi
        have hpos := List.length_pos_iff.mpr heol
        have hpre := findAt_isPrefix hi
        rcases heq.1 with rfl | rfl
        · exact hpre
        · rw [List.length_nil] at hlen
          omega
      · simp only [if_neg hline, Option.bind_eq_bind, Option.bind_eq_some_iff] at h
        obtain ⟨r, -, heq⟩ := h
        cases heq

/-! ## Messages -/

structure Message (α : Type*) where
  start : List α
  fields : List (List α × List α)
  body : List α
  deriving DecidableEq

/-- What a format fixes. -/
structure Layout (α : Type*) where
  eol : List α
  sep : List α
  bodyLength : List (List α × List α) → Option Nat

namespace Layout

variable (l : Layout α)

/-- The line of a field. -/
def line (field : List α × List α) : List α := field.1 ++ (l.sep ++ field.2)

/-- The bytes of a message, with `ending` in the place of the empty line. -/
def writeWith (ending : List α) (m : Message α) : List α :=
  m.start ++ (l.eol ++ ((m.fields.map l.line).flatMap (fun line => line ++ l.eol)
    ++ (ending ++ m.body)))

def write (m : Message α) : List α := l.writeWith l.eol m

/-- The message that the bytes start with, and what follows it. -/
def read (s : List α) : Option (Message α × List α) :=
  (cut l.eol s).bind fun (start, s) =>
    (readLines l.eol (s.length + 1) s).bind fun (lines, s) =>
      (lines.mapM (cut l.sep)).bind fun fields =>
        (l.bodyLength fields).bind fun n =>
          if n ≤ s.length then some (⟨start, fields, s.take n⟩, s.drop n) else none

/-- No line and no key can be cut too early. -/
structure WellFormed (m : Message α) : Prop where
  start : Ends l.eol m.start
  keys : ∀ field ∈ m.fields, Ends l.sep field.1
  lines : ∀ field ∈ m.fields, l.line field ≠ [] ∧ Ends l.eol (l.line field)

variable {l}

theorem mapM_cut_line {fields : List (List α × List α)} (h : ∀ field ∈ fields, Ends l.sep field.1) :
    (fields.map l.line).mapM (cut l.sep) = some fields := by
  induction fields with
  | nil => rfl
  | cons field fields ih =>
      have hrest := ih fun f hf => h f (List.mem_cons_of_mem field hf)
      have hcut := (h field (by simp)).cut field.2
      rw [List.map_cons, List.mapM_cons, line, hcut, hrest]
      rfl

omit [DecidableEq α] in
theorem length_le_flatMap {eol : List α} (heol : eol ≠ []) (lines : List (List α)) :
    lines.length ≤ (lines.flatMap fun line => line ++ eol).length := by
  induction lines with
  | nil => simp
  | cons line lines ih =>
      have hpos := List.length_pos_iff.mpr heol
      simp only [List.length_cons, List.flatMap_cons, List.length_append]
      omega

/-- The reader comes through all fields. -/
theorem read_writeWith_eq (heol : l.eol ≠ []) {m : Message α} (h : l.WellFormed m)
    (ending t : List α) : ∃ n, l.read (l.writeWith ending m ++ t)
      = (readLines l.eol (n + 1) (ending ++ (m.body ++ t))).bind fun rest =>
          ((m.fields.map l.line ++ rest.1).mapM (cut l.sep)).bind fun fields =>
            (l.bodyLength fields).bind fun k =>
              if k ≤ rest.2.length then some (⟨m.start, fields, rest.2.take k⟩, rest.2.drop k)
              else none := by
  have hlines : ∀ line ∈ m.fields.map l.line, line ≠ [] ∧ Ends l.eol line := by
    intro line hline
    obtain ⟨field, hfield, rfl⟩ := List.mem_map.mp hline
    exact h.lines field hfield
  have hle := length_le_flatMap heol (m.fields.map l.line)
  obtain ⟨n, hn⟩ : ∃ n, ((m.fields.map l.line).flatMap (fun line => line ++ l.eol)
      ++ (ending ++ (m.body ++ t))).length + 1 = (m.fields.map l.line).length + (n + 1) := by
    rw [List.length_append]
    exact ⟨_, by rw [← Nat.add_assoc]; exact congrArg (· + 1) (Nat.add_sub_of_le (by omega)).symm⟩
  have hstart := h.start.cut ((m.fields.map l.line).flatMap (fun line => line ++ l.eol)
    ++ (ending ++ (m.body ++ t)))
  have hrest := readLines_append l.eol (ending ++ (m.body ++ t)) (n + 1) _ hlines
  refine ⟨n, ?_⟩
  simp only [read, writeWith, List.append_assoc, hstart, hn, hrest, Option.bind_some,
    Option.bind_map, Function.comp_def]

/-- The reader comes as far as the body. -/
theorem read_write_eq (heol : l.eol ≠ []) {m : Message α} (h : l.WellFormed m) (t : List α) :
    l.read (l.write m ++ t) = (l.bodyLength m.fields).bind fun n =>
      if n ≤ (m.body ++ t).length then
        some (⟨m.start, m.fields, (m.body ++ t).take n⟩, (m.body ++ t).drop n)
      else none := by
  obtain ⟨n, hread⟩ := read_writeWith_eq heol h l.eol t
  have hcut := (ends_nil l.eol).cut (m.body ++ t)
  rw [List.nil_append] at hcut
  rw [write, hread, readLines, hcut]
  simp only [Option.bind_eq_bind, Option.bind_some, if_true, List.append_nil,
    mapM_cut_line h.keys]

/-- What is written is read, whatever follows it, exactly if the fields say
how long the body is. -/
theorem read_write_iff (heol : l.eol ≠ []) {m : Message α} (h : l.WellFormed m) :
    (∀ t, l.read (l.write m ++ t) = some (m, t)) ↔
      l.bodyLength m.fields = some m.body.length := by
  constructor
  · intro hread
    have hnil := hread []
    rw [read_write_eq heol h, List.append_nil] at hnil
    obtain ⟨n, hn, hcut⟩ := Option.bind_eq_some_iff.mp hnil
    rw [Option.ite_none_right_eq_some, Option.some.injEq, Prod.mk.injEq] at hcut
    have hdrop := congrArg List.length hcut.2.2
    rw [List.length_drop, List.length_nil] at hdrop
    rw [hn, show n = m.body.length by omega]
  · intro hlength t
    have hle : m.body.length ≤ (m.body ++ t).length := by simp
    rw [read_write_eq heol h, hlength, Option.bind_some, if_pos hle, List.take_left,
      List.drop_left]

/-- A message is not read as it was meant if something else stands in the
place of the empty line: there is another field then. -/
theorem ending_of_read (heol : l.eol ≠ []) {m : Message α} (h : l.WellFormed m)
    {ending : List α} (hlen : ending.length = l.eol.length) {t : List α}
    (hread : l.read (l.writeWith ending m ++ t) = some (m, t)) : ending = l.eol := by
  obtain ⟨n, heq⟩ := read_writeWith_eq heol h ending t
  rw [heq, Option.bind_eq_some_iff] at hread
  obtain ⟨⟨more, rest⟩, hmore, hread⟩ := hread
  obtain ⟨fields, hfields, hread⟩ := Option.bind_eq_some_iff.mp hread
  obtain ⟨k, -, hread⟩ := Option.bind_eq_some_iff.mp hread
  rw [Option.ite_none_right_eq_some, Option.some.injEq, Prod.mk.injEq] at hread
  obtain rfl : fields = m.fields := (congrArg Message.fields hread.2.1)
  rw [List.mapM_append, mapM_cut_line h.keys, Option.bind_eq_bind, Option.bind_some,
    Option.bind_eq_some_iff] at hfields
  obtain ⟨others, hothers, hnone⟩ := hfields
  obtain rfl : others = [] := List.append_right_eq_self.mp (Option.some.inj hnone)
  -- no other field, so no other line, so an empty one comes first
  cases more with
  | nil =>
      have hprefix := prefix_of_readLines_nil heol hmore
      exact (List.prefix_of_prefix_length_le hprefix (List.prefix_append _ _)
        hlen.ge).eq_of_length hlen.symm |>.symm
  | cons line more =>
      rw [List.mapM_cons, Option.bind_eq_bind, Option.bind_eq_some_iff] at hothers
      obtain ⟨field, -, hothers⟩ := hothers
      obtain ⟨fields, -, hcons⟩ := Option.bind_eq_some_iff.mp hothers
      cases hcons

/-- What is sent is read, whatever follows it, exactly if the empty line is
there and the fields say how long the body is. -/
theorem read_writeWith_iff (heol : l.eol ≠ []) {m : Message α} (h : l.WellFormed m)
    {ending : List α} (hlen : ending.length = l.eol.length) :
    (∀ t, l.read (l.writeWith ending m ++ t) = some (m, t)) ↔
      ending = l.eol ∧ l.bodyLength m.fields = some m.body.length := by
  constructor
  · intro hread
    obtain rfl := ending_of_read heol h hlen (hread [])
    exact ⟨rfl, (read_write_iff heol h).mp hread⟩
  · rintro ⟨rfl, hlength⟩
    exact (read_write_iff heol h).mpr hlength

end Layout

end VideoMatch.Machine
