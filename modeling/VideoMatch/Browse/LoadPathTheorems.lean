/-
VideoMatch.Browse.LoadPathTheorems — what `LoadPath` makes of the list of
videos.

A line names a video if its last component ends in `.pickle` (`videoOf`),
and the scan for the last slash and the last dot finds exactly that
(`addPath_eq`). The lines go through a buffer of 128 bytes, however, and a
line of more than 127 bytes is taken for several lines.
`list_read_exactly_iff` says when that shows.
-/
import VideoMatch.Machine.LastWins
import VideoMatch.Browse.Pages

namespace VideoMatch.Browse

open VideoMatch.Cxx VideoMatch.Machine

/-! ## What a line names -/

/-- The part of a path behind its last slash. -/
def lastComponent (line : Bytes) : Bytes := line.rtakeWhile (· ≠ 47)

/-- The base name of the video that a line names, if its last component
ends in `.pickle`. -/
def videoOf (line : Bytes) : Option Bytes :=
  let name := lastComponent line
  if ascii ".pickle" <:+ name then some (name.take (name.length - 7)) else none

theorem scanLine_concat (line : Bytes) (c : UInt8) :
    scanLine (line ++ [c]) =
      if c = 47 then (line.length + 1, (scanLine line).2)
      else if c = 46 then ((scanLine line).1, some line.length)
      else scanLine line := by
  simp [scanLine, List.zipIdx_append]

theorem lastComponent_suffix (line : Bytes) : lastComponent line <:+ line :=
  List.rtakeWhile_suffix _ _

/-- A text without slashes at the end of a path is at the end of its last
component. -/
theorem suffix_lastComponent {line s : Bytes} (hs : 47 ∉ s) :
    s <:+ lastComponent line ↔ s <:+ line := by
  constructor
  · intro h
    exact h.trans (lastComponent_suffix line)
  · intro h
    obtain ⟨t, rfl⟩ := h
    have hall : ∀ b ∈ s.reverse, decide (b ≠ 47) = true := by
      intro b hb
      simpa using ne_of_mem_of_not_mem (List.mem_reverse.mp hb) hs
    rw [lastComponent, List.rtakeWhile, List.reverse_append, List.takeWhile_append_of_pos hall,
      List.reverse_append, List.reverse_reverse]
    exact List.suffix_append _ _

/-- The first pointer of the scan is at the last component. -/
theorem scanLine_fst (line : Bytes) :
    (scanLine line).1 + (lastComponent line).length = line.length := by
  induction line using List.reverseRecOn with
  | nil => rfl
  | append_singleton line c ih =>
      rw [scanLine_concat, lastComponent, List.rtakeWhile_concat]
      by_cases hslash : c = 47
      · simp [hslash]
      · have hkeep : (if c = 46 then ((scanLine line).1, some line.length) else scanLine line).1
            = (scanLine line).1 := by split <;> rfl
        rw [if_neg hslash, hkeep, if_pos (by simpa using hslash), List.length_append,
          List.length_append, ← ih]
        rfl

/-- The second one is at the last dot. -/
theorem scanLine_snd (s : Bytes) {t : Bytes} (ht : 46 ∉ t) :
    (scanLine (s ++ 46 :: t)).2 = some s.length := by
  induction t using List.reverseRecOn with
  | nil => rw [scanLine_concat, if_neg (by decide), if_pos rfl]
  | append_singleton t c ih =>
      have hc : c ≠ 46 := fun h => ht (by simp [h])
      have hkeep := ih fun h => ht (List.mem_append_left _ h)
      have hassoc : s ++ 46 :: (t ++ [c]) = s ++ 46 :: t ++ [c] := by simp
      rw [hassoc, scanLine_concat, if_neg hc]
      split <;> exact hkeep

/-- A line that names a video is entered whole under the name. -/
theorem addPath_eq (rawPath : StdMap Bytes Bytes) (fn : Bytes) :
    addPath rawPath fn =
      (videoOf (lineOf fn)).elim rawPath fun key => rawPath.assign key (lineOf fn) := by
  unfold addPath
  rw [← lineOf]
  generalize lineOf fn = line
  have hfst := scanLine_fst line
  have hplain : (47 : UInt8) ∉ ascii ".pickle" := by decide
  rw [videoOf]
  simp only [suffix_lastComponent hplain]
  by_cases hsuffix : ascii ".pickle" <:+ line
  · have hname : line.drop (scanLine line).1 = lastComponent line := by
      have hdrop := List.suffix_iff_eq_drop.mp (lastComponent_suffix line)
      rw [hdrop]
      congr 1
      omega
    have hseven : (ascii ".pickle").length = 7 := rfl
    have hle := ((suffix_lastComponent hplain).mpr hsuffix).length_le
    obtain ⟨s, hs⟩ := hsuffix
    have hdot : (scanLine line).2 = some s.length := by
      rw [← hs]
      exact scanLine_snd s (by decide)
    have hlen : line.length = s.length + 7 := by rw [← hs, List.length_append, hseven]
    have hdrop : line.drop s.length = ascii ".pickle" := by rw [← hs, List.drop_left]
    have hkey : s.length - (scanLine line).1 = (lastComponent line).length - 7 := by omega
    rw [if_pos ⟨s, hs⟩, hdot]
    simp only [hdrop, if_true, hname, hkey, Option.elim_some]
  · rw [if_neg hsuffix]
    cases (scanLine line).2 with
    | none => rfl
    | some d =>
        have hnot : line.drop d ≠ ascii ".pickle" := fun h => hsuffix (h ▸ List.drop_suffix d line)
        simp only [if_neg hnot, Option.elim_none]

/-- Strings of `fgets` are entered one after another, and the last one with
a name counts. -/
theorem find?_foldl_addPath (key : Bytes) (fns : List Bytes) :
    (fns.foldl addPath UnorderedMap.empty).find? key = lastWith videoOf key (fns.map lineOf) := by
  induction fns using List.reverseRecOn with
  | nil => rfl
  | append_singleton fns fn ih =>
      rw [List.foldl_append, List.foldl_cons, List.foldl_nil, addPath_eq, List.map_append,
        List.map_cons, List.map_nil, lastWith_concat]
      cases hname : videoOf (lineOf fn) with
      | none => simpa using ih
      | some key' =>
          rw [Option.elim_some, UnorderedMap.find?_assign, ih]
          simp only [Option.some.injEq, eq_comm]

/-! ## The whole list -/

theorem videoOf_nil : videoOf [] = none := by decide

/-- `raw_path_` holds what the last piece of a line says. -/
theorem find?_startVm (cacheSize : Nat) {file : Bytes} (h : 0 ∉ file) (key : Bytes) :
    (startVm cacheSize file).rawPath.find? key
      = lastWith videoOf key ((file.splitOn 10).flatMap (chunks 127)) := by
  have hreads := fgetsAll_file (n := 127) (by decide) h
  have hloaded : (startVm cacheSize file).rawPath
      = (fgetsAll 128 [] file).foldl addPath UnorderedMap.empty := rfl
  rw [hloaded, find?_foldl_addPath, ← hreads, lastWith_filter]
  intro line hline
  have hne : line ≠ [] := fun hnil => hline (hnil ▸ videoOf_nil)
  simpa using hne

/-- `raw_path_` maps the names of the videos that the lines name to these
lines, the last one for each name, and nothing else to anything. -/
def ReadsExactly (cacheSize : Nat) (file : Bytes) : Prop :=
  ∀ key, (startVm cacheSize file).rawPath.find? key = lastWith videoOf key (file.splitOn 10)

/-- A line of more than 127 bytes that names a video is followed by another
line that names it; and a piece of 127 bytes of such a line, or the piece
at its end, that reads as if it named a video is followed by another line
or piece that names it, or it is, byte for byte, the last line that does. -/
def LongLinesHarmless (file : Bytes) : Prop :=
  CutHarmless videoOf (fun line => line.length ≤ 127) (chunks 127) (file.splitOn 10)

/-- The list is read exactly if its long lines do no harm. -/
theorem list_read_exactly_iff (cacheSize : Nat) {file : Bytes} (h : 0 ∉ file) :
    ReadsExactly cacheSize file ↔ LongLinesHarmless file := by
  unfold ReadsExactly
  simp only [find?_startVm cacheSize h]
  apply lastWith_flatMap_iff
  · intro line hline
    by_cases hnil : line = []
    · exact .inr ⟨by rw [hnil, chunks_nil (by decide)], by rw [hnil, videoOf_nil]⟩
    · exact .inl (chunks_of_length_le hnil hline)
  · intro line p hp
    exact length_le_of_mem_chunks hp

theorem list_read_exactly_single : ReadsExactly 0 (ascii "/a/v.pickle\n") := by
  refine (list_read_exactly_iff 0 (by decide)).mpr (cutHarmless_of_whole ?_)
  have hlines : (ascii "/a/v.pickle\n").splitOn 10 = [ascii "/a/v.pickle", []] := by
    simp [ascii, List.splitOn_cons_eq_if_modifyHead]
  rw [hlines]
  decide

/-- A line of 139 bytes: the video is entered under the path that its last
12 bytes are. -/
theorem long_line_loses_directory :
    (startVm 0 (List.replicate 130 97 ++ ascii "/v.pickle")).rawPath.find? (ascii "v")
      = some (ascii "aaa/v.pickle") ∧
    ¬ ReadsExactly 0 (List.replicate 130 97 ++ ascii "/v.pickle") := by
  have hfound : (startVm 0 (List.replicate 130 97 ++ ascii "/v.pickle")).rawPath.find? (ascii "v")
      = some (ascii "aaa/v.pickle") := by decide +kernel
  refine ⟨hfound, fun hexact => ?_⟩
  have hline : (List.replicate 130 97 ++ ascii "/v.pickle").splitOn 10
      = [List.replicate 130 97 ++ ascii "/v.pickle"] :=
    List.splitOn_eq_singleton (by decide +kernel)
  have hlast := hexact (ascii "v")
  rw [hfound, hline] at hlast
  exact absurd hlast (by decide +kernel)

end VideoMatch.Browse
