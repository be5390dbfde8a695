/-
VideoMatch.Server.PlainTheorems — the plain reply to a query by key beside
the JSON reply.

`Query` writes a plain line through a buffer of 128 bytes and by way of
`c_str()`. A line is complete only if it has at most 127 bytes and no NUL,
and a line that lost its newline runs into the next one. Since a score
takes eight bytes (`length_formatF`), the names decide:
`plain_as_listed_iff`.
-/
import VideoMatch.Cxx.Format
import VideoMatch.Server.RequestTheorems

namespace VideoMatch.Server

open VideoMatch.Cxx

/-! ## The digits of a score -/

/-- A score between 0 and 1 is one digit, the point and six digits. -/
theorem length_formatF {q : ℚ} (h0 : 0 ≤ q) (h1 : q ≤ 1) : (formatF q).length = 8 := by
  have hround : roundHalfEven (|q| * 10 ^ 6) ≤ 10 ^ 6 := by
    apply roundHalfEven_le
    rw [abs_of_nonneg h0]
    push_cast
    linarith
  generalize hn : (roundHalfEven (|q| * 10 ^ 6)).toNat = n
  have hle : n ≤ 10 ^ 6 := by omega
  have hhead : (ascii (toString (n / 10 ^ 6))).length ≤ 1 := decimal_length_le one_pos (by omega)
  have htail : (ascii (toString (n % 10 ^ 6))).length ≤ 6 :=
    decimal_length_le (by omega) (by omega)
  have hne : 0 < (ascii (toString (n / 10 ^ 6))).length :=
    List.length_pos_of_ne_nil (decimal_ne_nil (n / 10 ^ 6))
  have hpoint : (ascii ".").length = 1 := rfl
  rw [formatF, hn, if_neg (not_lt.mpr h0)]
  simp only [List.length_append, List.length_replicate, List.length_nil, hpoint]
  omega

theorem not_mem_formatF (q : ℚ) : (10 : UInt8) ∉ formatF q := by
  have hdigits : ∀ n : Nat, (10 : UInt8) ∉ ascii (toString n) := fun n hmem =>
    absurd (isDigit_of_mem_decimal n 10 hmem) (by decide)
  have hsign : (10 : UInt8) ∉ (if q < 0 then ascii "-" else []) := by
    split <;> decide
  have hpoint : (10 : UInt8) ∉ ascii "." := by decide
  have hzero : (10 : UInt8) ≠ 48 := by decide
  simp only [formatF, List.mem_append, hsign, hdigits, hpoint, List.mem_replicate, hzero, and_false,
    or_self, not_false_eq_true]

/-! ## Lines -/

/-- Texts that are nowhere longer than others have the same concatenation
only if they are the same texts. -/
theorem flatMap_eq_iff_of_length_le {α β : Type*} {f g : α → List β} {xs : List α}
    (hle : ∀ x ∈ xs, (f x).length ≤ (g x).length) :
    xs.flatMap f = xs.flatMap g ↔ ∀ x ∈ xs, f x = g x := by
  induction xs with
  | nil => simp
  | cons x xs ih =>
      have hrest : ∀ y ∈ xs, (f y).length ≤ (g y).length := fun y hy =>
        hle y (List.mem_cons_of_mem _ hy)
      rw [List.flatMap_cons, List.flatMap_cons, List.forall_mem_cons, ← ih hrest]
      constructor
      · intro h
        have hlen := congrArg List.length h
        have hsum : (xs.flatMap f).length ≤ (xs.flatMap g).length := by
          rw [List.length_flatMap, List.length_flatMap]
          exact List.sum_le_sum hrest
        have hfirst := hle x List.mem_cons_self
        rw [List.length_append, List.length_append] at hlen
        exact List.append_inj h (by omega)
      · intro h
        rw [h.1, h.2]

/-- The line for a result, complete. -/
def fullLine (key name : Bytes) (score : ℚ) : Bytes :=
  key ++ ascii " " ++ name ++ ascii " " ++ formatF score ++ ascii "\n"

/-- One newline, at the end. -/
def IsLine (text : Bytes) : Prop := ∃ t, text = t ++ ascii "\n" ∧ 10 ∉ t

/-- The line for `name` passes through the buffer and through `c_str()`. -/
def LineFits (key name : Bytes) : Prop := 0 ∉ key ∧ 0 ∉ name ∧ key.length + name.length ≤ 116

theorem length_fullLine (key name : Bytes) {score : ℚ} (h0 : 0 ≤ score) (h1 : score ≤ 1) :
    (fullLine key name score).length = key.length + name.length + 11 := by
  have hspace : (ascii " ").length = 1 := rfl
  have hnewline : (ascii "\n").length = 1 := rfl
  simp only [fullLine, List.length_append, hspace, hnewline, length_formatF h0 h1]
  omega

theorem length_cStr_le (s : Bytes) : (cStr s).length ≤ s.length :=
  (List.takeWhile_sublist _).length_le

/-- A string keeps its length exactly if it has no NUL. -/
theorem length_cStr_eq_iff {s : Bytes} : (cStr s).length = s.length ↔ 0 ∉ s := by
  constructor
  · intro h hmem
    have hself : cStr s = s := (List.takeWhile_prefix _).eq_of_length h
    have hall := List.takeWhile_eq_self_iff.mp hself 0 hmem
    simp at hall
  · intro h
    rw [cStr, takeWhile_ne_zero h]

theorem length_plainLine (key name : Bytes) {score : ℚ} (h0 : 0 ≤ score) (h1 : score ≤ 1) :
    (plainLine key name score).length
      = min 127 ((cStr key).length + (cStr name).length + 11) := by
  rw [plainLine, List.length_take]
  exact congrArg _ (length_fullLine (cStr key) (cStr name) h0 h1)

/-- The line is complete exactly if it fits. -/
theorem plainLine_eq_iff (key name : Bytes) {score : ℚ} (h0 : 0 ≤ score) (h1 : score ≤ 1) :
    plainLine key name score = fullLine key name score ↔ LineFits key name := by
  constructor
  · intro h
    have hlen := congrArg List.length h
    rw [length_plainLine key name h0 h1, length_fullLine key name h0 h1] at hlen
    have hkey := length_cStr_le key
    have hname := length_cStr_le name
    exact ⟨length_cStr_eq_iff.mp (by omega), length_cStr_eq_iff.mp (by omega), by omega⟩
  · intro h
    obtain ⟨hkey, hname, hlen⟩ := h
    have hshort := length_fullLine key name h0 h1
    rw [plainLine, cStr, cStr, takeWhile_ne_zero hkey, takeWhile_ne_zero hname]
    exact List.take_of_length_le (by rw [fullLine] at hshort; omega)

theorem isLine_fullLine_iff (key name : Bytes) (score : ℚ) :
    IsLine (fullLine key name score) ↔ 10 ∉ key ∧ 10 ∉ name := by
  have hspace : (10 : UInt8) ∉ ascii " " := by decide
  have hbody : (10 : UInt8) ∉ key ++ ascii " " ++ name ++ ascii " " ++ formatF score ↔
      10 ∉ key ∧ 10 ∉ name := by
    simp only [List.mem_append, hspace, not_mem_formatF, or_false, not_or]
  constructor
  · intro h
    obtain ⟨t, ht, hnot⟩ := h
    obtain rfl := List.append_cancel_right ht
    exact hbody.mp hnot
  · intro h
    exact ⟨_, rfl, hbody.mpr h⟩

/-! ## What the JSON reply lists -/

/-- The name and the score of one element of the result array. -/
def entryOf : Json → Option (Bytes × ℚ)
  | .obj ms =>
      match Json.find? ms (ascii "name"), Json.find? ms (ascii "score") with
      | some (.str name), some (.real score) => some (name, score)
      | _, _ => none
  | _ => none

/-- The entries that a reply lists. -/
def listed : Json → List (Bytes × ℚ)
  | .obj ms =>
      match Json.find? ms (ascii "result") with
      | some (.arr items) => items.filterMap entryOf
      | _ => []
  | _ => []

theorem entryOf_resultItem (r : Bytes × ℚ) : entryOf (resultItem r) = some r := by
  have hname : Json.find? (Json.set (Json.set [] (ascii "name") (.str r.1)) (ascii "score")
      (.real r.2)) (ascii "name") = some (.str r.1) := by
    rw [Json.find?_set_of_ne _ _ (by decide), Json.find?_set_self]
  simp only [entryOf, resultItem, hname, Json.find?_set_self]

/-- The reply to a query lists its results. -/
theorem listed_queryReply {code timeMs : Int} {out : List (Bytes × ℚ)} {rv : Members}
    (h : queryReply code out = some rv) :
    listed (.obj (Json.set rv (ascii "time_ms") (.int timeMs))) = out := by
  rw [queryReply_eq, Option.some.injEq] at h
  have hresult : Json.find? (Json.set rv (ascii "time_ms") (.int timeMs)) (ascii "result")
      = if out = [] then none else some (.arr (out.map resultItem)) := by
    rw [Json.find?_set_of_ne _ _ (by decide), ← h]
    split
    · rw [Json.find?_set_of_ne _ _ (by decide)]
      rfl
    · exact Json.find?_set_self _ _ _
  rw [listed, hresult]
  by_cases hout : out = []
  · rw [if_pos hout, hout]
  · rw [if_neg hout]
    simp only [List.filterMap_map, Function.comp_def, entryOf_resultItem, List.filterMap_some]

/-! ## The two replies -/

/-- The lines of a plain reply are complete exactly if they fit. -/
theorem flatMap_plainLine_eq_iff (key : Bytes) {out : List (Bytes × ℚ)}
    (hscore : ∀ r ∈ out, 0 ≤ r.2 ∧ r.2 ≤ 1) :
    out.flatMap (fun r => plainLine key r.1 r.2) = out.flatMap (fun r => fullLine key r.1 r.2) ↔
      ∀ r ∈ out, LineFits key r.1 := by
  have hle : ∀ r ∈ out, (plainLine key r.1 r.2).length ≤ (fullLine key r.1 r.2).length := by
    intro r hr
    have hkey := length_cStr_le key
    have hname := length_cStr_le r.1
    rw [length_plainLine _ _ (hscore r hr).1 (hscore r hr).2,
      length_fullLine _ _ (hscore r hr).1 (hscore r hr).2]
    omega
  exact (flatMap_eq_iff_of_length_le hle).trans
    (forall₂_congr fun r hr => plainLine_eq_iff _ _ (hscore r hr).1 (hscore r hr).2)

namespace VideoDB

/-- Both replies to a stored key list the matches in one order. -/
theorem replies_spec {s : VideoDB} (hs : Inv s) {key : Bytes} {frames : List UInt64}
    (hkey : (key, frames) ∈ s.content) (er : EqualRange UInt64) (o : HashOrder) (timeMs : Int) :
    ∃ rv, handleKey er o timeMs s key = some (rv, s) ∧
      handleKeyPlain er o s key
        = some ((listed rv).flatMap fun r => plainLine key r.1 r.2, s) ∧
      (∀ r, r ∈ listed rv ↔ r ∈ s.catalogue.scan er frames) ∧
      ∀ r ∈ listed rv, 0 ≤ r.2 ∧ r.2 ≤ 1 := by
  obtain ⟨out, hquery, hout, -⟩ := queryFrames_spec hs er o frames []
  rw [Multiset.coe_nil, Multiset.zero_add] at hout
  obtain ⟨⟨rv, hrv, hreply⟩, hplain⟩ := handleKey_eq hs er o timeMs hkey hquery
  have hmem : ∀ r, r ∈ out ↔ r ∈ s.catalogue.scan er frames := fun r => by
    rw [← hout, Multiset.mem_coe]
  refine ⟨_, hreply, ?_⟩
  rw [listed_queryReply hrv]
  refine ⟨hplain, hmem, ?_⟩
  intro r hr
  obtain ⟨base, -, -, -, hcheck, -⟩ := Catalogue.mem_scan.mp ((hmem r).mp hr)
  obtain ⟨score, hcheck', hbounds⟩ := checkCandidate_total er base frames
  obtain rfl : score = r.2 := Option.some.inj (hcheck'.symm.trans hcheck)
  exact hbounds

/-- The plain reply to a stored key is the concatenation of the complete
lines for what the JSON reply lists exactly if the line for every video
that matches fits; these are one line each exactly if no newline stands in
the names either. -/
theorem plain_as_listed_iff {s : VideoDB} (hs : Reachable s) {key : Bytes} {frames : List UInt64}
    (hkey : (key, frames) ∈ s.content) (J : JsonCpp) (er : EqualRange UInt64) (o : HashOrder)
    (timeMs : Int) :
    ∃ rv text, handleKey er o timeMs s key = some (rv, s) ∧
      query J er o timeMs s key false = some (J.write rv, s) ∧
      query J er o timeMs s key true = some (text, s) ∧
      (text = (listed rv).flatMap (fun r => fullLine key r.1 r.2) ↔
        ∀ r ∈ s.catalogue.scan er frames, LineFits key r.1) ∧
      (text = (listed rv).flatMap (fun r => fullLine key r.1 r.2) ∧
          (∀ r ∈ listed rv, IsLine (fullLine key r.1 r.2)) ↔
        ∀ r ∈ s.catalogue.scan er frames, LineFits key r.1 ∧ 10 ∉ key ∧ 10 ∉ r.1) := by
  obtain ⟨rv, hreply, hplain, hmem, hscore⟩ := replies_spec hs.inv hkey er o timeMs
  refine ⟨rv, (listed rv).flatMap fun r => plainLine key r.1 r.2, hreply, ?_, ?_, ?_⟩
  · rw [query, if_neg (by decide), hreply]
    rfl
  · rw [query, if_pos rfl, hplain]
  · simp only [← hmem, isLine_fullLine_iff, flatMap_plainLine_eq_iff key hscore, true_and]
    constructor
    · intro h r hr
      exact ⟨h.1 r hr, h.2 r hr⟩
    · intro h
      exact ⟨fun r hr => (h r hr).1, fun r hr => (h r hr).2⟩

theorem plain_as_listed_single : ∃ s : VideoDB, s.content = [(ascii "v", [7])] ∧
    ∃ rv text, handleKey default default 0 s (ascii "v") = some (rv, s) ∧
      query ⟨fun _ => none, fun _ => []⟩ default default 0 s (ascii "v") true = some (text, s) ∧
      text = (listed rv).flatMap fun r => fullLine (ascii "v") r.1 r.2 := by
  obtain ⟨s, hs, hcontent⟩ := addReached_single (ascii "v") [7]
  have hkey : (ascii "v", [7]) ∈ s.content := by simp [hcontent]
  obtain ⟨rv, text, hreply, -, hplain, hiff, -⟩ := plain_as_listed_iff hs.reachable hkey
    ⟨fun _ => none, fun _ => []⟩ default default 0
  refine ⟨s, hcontent, rv, text, hreply, hplain, hiff.mpr ?_⟩
  intro r hr
  obtain ⟨base, hbase, -⟩ := Catalogue.mem_scan.mp hr
  have hname : (r.1, base) ∈ s.content := hbase
  rw [hcontent, List.mem_singleton, Prod.mk.injEq] at hname
  rw [hname.1]
  exact ⟨by decide, by decide, by decide⟩

/-- The line of a video with a name of 60 bytes is cut in the score. -/
theorem long_key_loses_newline : ∃ s : VideoDB, Reachable s ∧
    s.content = [(List.replicate 60 97, [7])] ∧
    ∃ rv text, handleKey default default 0 s (List.replicate 60 97) = some (rv, s) ∧
      handleKeyPlain default default s (List.replicate 60 97) = some (text, s) ∧
      text ≠ (listed rv).flatMap fun r => fullLine (List.replicate 60 97) r.1 r.2 := by
  obtain ⟨s, hs, hcontent⟩ := addReached_single (List.replicate 60 97) [7]
  have hkey : (List.replicate 60 97, [7]) ∈ s.content := by simp [hcontent]
  obtain ⟨rv, hreply, hplain, hmem, hscore⟩ := replies_spec hs.reachable.inv hkey default default 0
  refine ⟨s, hs.reachable, hcontent, rv, _, hreply, hplain, ?_⟩
  rw [ne_eq, flatMap_plainLine_eq_iff _ hscore]
  intro hfits
  have hself : (List.replicate 60 97, 1) ∈ s.catalogue.scan default [7] :=
    Catalogue.mem_scan.mpr ⟨[7], hkey, ⟨7, by simp, by decide, by simp⟩, not_lengthDiffers_self [7],
      checkCandidate_self default (by decide), by norm_num [threshold]⟩
  exact absurd (hfits _ ((hmem _).mpr hself)).2.2 (by decide)

end VideoDB

end VideoMatch.Server
