/-
VideoMatch.Server.ProtocolTheorems — what a reply says about its request.

`Process` takes a body apart and carries out what it found. `requestOf` is
the first half: the request, a message if the body is refused, or nothing
if the JSON library raises. `carryOut` is the second half, which always
succeeds (`carryOut_add`, `carryOut_query`). `handle_eq` puts them
together, so what a reply can be is read off three cases.

The checks cover the members but neither the root nor the elements of
`frames`. `repliesWell_iff` says for which bodies that is enough, and
`obeys_iff` when the reply follows the protocol comment.
-/
import VideoMatch.Server.RequestTheorems

namespace VideoMatch.Server

open VideoMatch.Cxx

/-! ## Requests -/

/-- A request with its frames decoded. -/
inductive Request where
  | add (name : Bytes) (frames : List UInt64)
  | query (frames : List UInt64)

/-- What `Process` makes of a parsed body. -/
def understand (v : Json) : Option (Except String Request) := do
  match ← v.member (ascii "type") with
  | some (.str reqType) =>
    if reqType = ascii "add" then
      match ← v.member (ascii "name") with
      | some (.str name) =>
        match ← v.member (ascii "frames") with
        | some (.arr frames) => (decodeFrames frames).map fun fs => .ok (.add name fs)
        | _ => some (.error "No 'frames' field")
      | _ => some (.error "No 'name' field")
    else if reqType = ascii "query_duplicate" then
      match ← v.member (ascii "frames") with
      | some (.arr frames) => (decodeFrames frames).map fun fs => .ok (.query fs)
      | _ => some (.error "No 'frames' field")
    else some (.error "Bad 'type' field")
  | _ => some (.error "No 'type' field")

def requestOf (J : JsonCpp) (body : Bytes) : Option (Except String Request) :=
  match J.parse (cStr body) with
  | none => some (.error "Parse failed")
  | some v => understand v

/-- The reply value of an understood request and the store. -/
def carryOut (er : EqualRange UInt64) (o : HashOrder) (s : VideoDB) :
    Request → Option (Json × VideoDB)
  | .add name frames =>
      (VideoDB.add o s (DataItem.ofFrames name frames)).map fun (code, s) => (addReply code, s)
  | .query frames =>
      (VideoDB.queryFrames er o s frames []).bind fun (code, result, s) =>
        (queryReply code result).map fun rv => (.obj rv, s)

/-- The rest of `Process`, once the body is taken apart. -/
def answer (er : EqualRange UInt64) (o : HashOrder) (s : VideoDB) :
    Except String Request → Option (Json × VideoDB)
  | .error msg => some (badRpl msg, s)
  | .ok r => carryOut er o s r

/-- `Process` refuses a body or carries out what it understood. -/
theorem handle_eq (J : JsonCpp) (er : EqualRange UInt64) (o : HashOrder) (s : VideoDB)
    (body : Bytes) : handle J er o s body = (requestOf J body).bind (answer er o s) := by
  unfold handle requestOf
  cases J.parse (cStr body) with
  | none => rfl
  | some v =>
      simp only [understand, Option.bind_eq_bind, Option.bind_assoc]
      refine Option.bind_congr fun type _ => ?_
      rcases type with _ | type
      · rfl
      cases type with
      | str reqType =>
          by_cases hadd : reqType = ascii "add"
          · simp only [if_pos hadd, Option.bind_assoc]
            refine Option.bind_congr fun name _ => ?_
            rcases name with _ | name
            · rfl
            cases name with
            | str name =>
                simp only [Option.bind_assoc]
                refine Option.bind_congr fun frames _ => ?_
                rcases frames with _ | frames
                · rfl
                cases frames with
                | arr frames =>
                    simp only [answer, carryOut, Option.map_eq_bind, Option.bind_assoc]
                    rfl
                | _ => rfl
            | _ => rfl
          · by_cases hquery : reqType = ascii "query_duplicate"
            · simp only [if_neg hadd, if_pos hquery, Option.bind_assoc]
              refine Option.bind_congr fun frames _ => ?_
              rcases frames with _ | frames
              · rfl
              cases frames with
              | arr frames =>
                  simp only [answer, carryOut, Option.map_eq_bind, Option.bind_assoc]
                  rfl
              | _ => rfl
            · simp only [if_neg hadd, if_neg hquery]
              rfl
      | _ => rfl

/-! ## Carrying out -/

/-- An `add` always comes back; a rejected one changes nothing. -/
theorem carryOut_add {s : VideoDB} (hs : VideoDB.Inv s) (er : EqualRange UInt64) (o : HashOrder)
    (name : Bytes) (frames : List UInt64) :
    (name ∈ s.catalogue.names ∧
      carryOut er o s (.add name frames) = some (addReply (-1), s)) ∨
    (name ∉ s.catalogue.names ∧ ∃ s', carryOut er o s (.add name frames) = some (addReply 0, s') ∧
      s'.catalogue.videos = (name, frames) ::ₘ s.catalogue.videos) := by
  by_cases hmem : name ∈ s.catalogue.names
  · rcases VideoDB.add_spec hs o (DataItem.ofFrames name frames) with ⟨-, hadd⟩ | ⟨hnew, -⟩
    · exact .inl ⟨hmem, by rw [carryOut, hadd]; rfl⟩
    · exact absurd hmem hnew
  · obtain ⟨s', hadd, -, hcat⟩ := VideoDB.add_catalogue hs o (DataItem.ofFrames name frames)
    have hnew : (DataItem.ofFrames name frames).name ∉ s.catalogue.names := hmem
    refine .inr ⟨hmem, s', ?_, ?_⟩
    · rw [carryOut, hadd, if_neg hnew]
      rfl
    · rw [hcat, Catalogue.videos_insert_of_not_mem hmem]
      rfl

theorem find_msg_code (code : Int) :
    Json.find? (Json.set [] (ascii "code") (.int code)) (ascii "msg") = none := by
  rw [Json.find?_set_of_ne _ _ (by decide)]
  rfl

/-- A query always comes back, with the number of matches as its code and
without a message. -/
theorem carryOut_query {s : VideoDB} (hs : VideoDB.Inv s) (er : EqualRange UInt64) (o : HashOrder)
    (frames : List UInt64) : ∃ ms, carryOut er o s (.query frames) = some (.obj ms, s) ∧
      Json.find? ms (ascii "code") = some (.int (toInt (s.catalogue.scan er frames).card)) ∧
      Json.find? ms (ascii "msg") = none := by
  obtain ⟨out, hquery, hout, -⟩ := VideoDB.queryFrames_spec hs er o frames []
  have hcard : (s.catalogue.scan er frames).card = out.length := by
    rw [Multiset.coe_nil, Multiset.zero_add] at hout
    rw [← hout, Multiset.coe_card]
  have hreply := queryReply_eq (toInt out.length) out
  obtain ⟨ms, hms⟩ : ∃ ms, queryReply (toInt out.length) out = some ms := ⟨_, hreply⟩
  rw [hms, Option.some.injEq] at hreply
  refine ⟨ms, ?_, ?_, ?_⟩
  · simp only [carryOut, hquery, hms, Option.bind_some, Option.map_some]
  · rw [hreply, hcard]
    split
    · exact Json.find?_set_self _ _ _
    · rw [Json.find?_set_of_ne _ _ (by decide), Json.find?_set_self]
  · rw [hreply]
    split
    · exact find_msg_code _
    · rw [Json.find?_set_of_ne _ _ (by decide), find_msg_code]

/-! ## Well-formed requests -/

/-- An integer in the range of `uint64_t`. -/
def IsUInt64 (x : Json) : Prop := ∃ i : Int, x = .int i ∧ 0 ≤ i ∧ i < 2 ^ 64

/-- The members of `ms` pass the checks for an add of `name`, with the array
`frames`. -/
def AsksAdd (ms : Members) (name : Bytes) (frames : List Json) : Prop :=
  Json.find? ms (ascii "type") = some (.str (ascii "add")) ∧
  Json.find? ms (ascii "name") = some (.str name) ∧
  Json.find? ms (ascii "frames") = some (.arr frames)

/-- The members of `ms` pass the checks for a query. -/
def AsksQuery (ms : Members) (frames : List Json) : Prop :=
  Json.find? ms (ascii "type") = some (.str (ascii "query_duplicate")) ∧
  Json.find? ms (ascii "frames") = some (.arr frames)

def WellFormedAdd (v : Json) : Prop :=
  ∃ ms name frames, v = .obj ms ∧ AsksAdd ms name frames ∧ ∀ x ∈ frames, IsUInt64 x

def WellFormedQuery (v : Json) : Prop :=
  ∃ ms frames, v = .obj ms ∧ AsksQuery ms frames ∧ ∀ x ∈ frames, IsUInt64 x

/-- Integers in range are decoded, as many as the counter reaches. -/
theorem decodeFrames_isSome {frames : List Json} (h : ∀ x ∈ frames, IsUInt64 x) :
    ∃ fs, decodeFrames frames = some fs := by
  have hbody : ∀ (fs : List UInt64) i, i ∈ List.range (toInt frames.length).toNat → True →
      ∃ fs', (frames[i]?.bind fun x => x.asUInt64.map fun f => fs ++ [f]) = some fs' ∧ True := by
    intro fs i hi _
    have hlt : i < frames.length := by
      have hle := toNat_toInt_le frames.length
      rw [List.mem_range] at hi
      omega
    obtain ⟨n, hn, h0, hlt'⟩ := h frames[i] (List.getElem_mem hlt)
    have hrange : 0 ≤ n ∧ n.toNat < 2 ^ 64 := by omega
    refine ⟨fs ++ [UInt64.ofNat n.toNat], ?_, trivial⟩
    rw [List.getElem?_eq_getElem hlt, hn, Option.bind_some, Json.asUInt64, if_pos hrange]
    rfl
  obtain ⟨fs, hfs, -⟩ := foldlM_total _ [] hbody trivial
  exact ⟨fs, hfs⟩

/-- What an object is understood as. -/
theorem understand_obj (ms : Members) :
    (∃ msg, understand (.obj ms) = some (.error msg) ∧ (∀ name frames, ¬ AsksAdd ms name frames) ∧
      ∀ frames, ¬ AsksQuery ms frames) ∨
    (∃ name frames, AsksAdd ms name frames ∧
      understand (.obj ms) = (decodeFrames frames).map fun fs => .ok (.add name fs)) ∨
    (∃ frames, AsksQuery ms frames ∧
      understand (.obj ms) = (decodeFrames frames).map fun fs => .ok (.query fs)) := by
  have hother : ¬ (ascii "query_duplicate" = ascii "add") := by decide
  by_cases hadd : ∃ name frames, AsksAdd ms name frames
  · obtain ⟨name, frames, h⟩ := hadd
    refine .inr (.inl ⟨name, frames, h, ?_⟩)
    obtain ⟨htype, hname, hframes⟩ := h
    simp [understand, Json.member, htype, hname, hframes]
  by_cases hquery : ∃ frames, AsksQuery ms frames
  · obtain ⟨frames, h⟩ := hquery
    refine .inr (.inr ⟨frames, h, ?_⟩)
    obtain ⟨htype, hframes⟩ := h
    simp [understand, Json.member, htype, hframes, hother]
  · refine .inl ?_
    suffices h : ∃ msg, understand (.obj ms) = some (.error msg) by
      obtain ⟨msg, h⟩ := h
      exact ⟨msg, h, fun name frames ha => hadd ⟨name, frames, ha⟩,
        fun frames hq => hquery ⟨frames, hq⟩⟩
    simp only [understand, Json.member, Option.bind_eq_bind, Option.bind_some]
    split
    · next htype =>
        split
        · next heq =>
            split
            · next hname =>
                split
                · next hframes => exact absurd ⟨_, _, heq ▸ htype, hname, hframes⟩ hadd
                · exact ⟨_, rfl⟩
            · exact ⟨_, rfl⟩
        · split
          · next heq =>
              split
              · next hframes => exact absurd ⟨_, heq ▸ htype, hframes⟩ hquery
              · exact ⟨_, rfl⟩
          · exact ⟨_, rfl⟩
    · exact ⟨_, rfl⟩

/-- `isMember` raises on everything but objects and null. -/
theorem understand_cases (v : Json) :
    v = .null ∨ (∃ ms, v = .obj ms) ∨ understand v = none := by
  cases v with
  | null => exact .inl rfl
  | obj ms => exact .inr (.inl ⟨ms, rfl⟩)
  | bool _ | int _ | real _ | str _ | arr _ => exact .inr (.inr rfl)

/-! ## Every request gets a reply -/

/-- A reply that refuses: the code -1 with a message. -/
def Refusal (rv : Json) : Prop :=
  ∃ ms msg, rv = .obj ms ∧ Json.find? ms (ascii "code") = some (.int (-1)) ∧
    Json.find? ms (ascii "msg") = some (.str msg)

theorem refusal_badRpl (msg : String) : Refusal (badRpl msg) := by
  refine ⟨_, ascii msg, rfl, ?_, Json.find?_set_self _ _ _⟩
  rw [Json.find?_set_of_ne _ _ (by decide), Json.find?_set_self]

/-- The body is a value with the property `P`. -/
def Holds (J : JsonCpp) (P : Json → Prop) (body : Bytes) : Prop :=
  ∃ v, J.parse (cStr body) = some v ∧ P v

/-- `Process` comes back with a reply; only a well-formed add may change the
store, and what is neither a well-formed add nor a well-formed query is
refused. -/
def RepliesWell (J : JsonCpp) (er : EqualRange UInt64) (o : HashOrder) (s : VideoDB)
    (body : Bytes) : Prop :=
  ∃ rv s', handle J er o s body = some (rv, s') ∧ process J er o s body = some (J.write rv, s') ∧
    (¬ Holds J WellFormedAdd body → s' = s) ∧
    (¬ Holds J WellFormedAdd body → ¬ Holds J WellFormedQuery body → Refusal rv)

/-- The root is an object or null, and a request that passes the checks of
its members has only integers in range in its array. -/
def ChecksSuffice (v : Json) : Prop :=
  v = .null ∨ ∃ ms, v = .obj ms ∧ ∀ frames,
    ((∃ name, AsksAdd ms name frames) ∨ AsksQuery ms frames) → ∀ x ∈ frames, IsUInt64 x

theorem repliesWell_of_error {J : JsonCpp} {body : Bytes} {msg : String}
    (h : requestOf J body = some (.error msg)) (er : EqualRange UInt64) (o : HashOrder)
    (s : VideoDB) : RepliesWell J er o s body := by
  have hhandle : handle J er o s body = some (badRpl msg, s) := by rw [handle_eq, h]; rfl
  exact ⟨_, s, hhandle, by rw [process, hhandle]; rfl, fun _ => rfl, fun _ _ => refusal_badRpl msg⟩

/-- What `Process` carries out comes back without a message. -/
theorem carryOut_spec {s : VideoDB} (hs : VideoDB.Inv s) (er : EqualRange UInt64) (o : HashOrder)
    (r : Request) : ∃ rv s', carryOut er o s r = some (rv, s') ∧ ¬ Refusal rv ∧
      ∀ frames, r = .query frames → s' = s := by
  have hnot : ∀ ms, Json.find? ms (ascii "msg") = none → ¬ Refusal (.obj ms) := by
    intro ms hms h
    obtain ⟨ms', msg, heq, -, hmsg⟩ := h
    cases heq
    rw [hms] at hmsg
    cases hmsg
  cases r with
  | add name frames =>
      rcases carryOut_add hs er o name frames with ⟨-, h⟩ | ⟨-, s', h, -⟩
      · exact ⟨_, _, h, hnot _ (find_msg_code _), fun _ heq => by cases heq⟩
      · exact ⟨_, _, h, hnot _ (find_msg_code _), fun _ heq => by cases heq⟩
  | query frames =>
      obtain ⟨ms, h, -, hmsg⟩ := carryOut_query hs er o frames
      exact ⟨_, _, h, hnot ms hmsg, fun _ _ => rfl⟩

theorem asked_frames_unique {ms : Members} {frames frames' : List Json}
    (h : (∃ name, AsksAdd ms name frames) ∨ AsksQuery ms frames)
    (h' : (∃ name, AsksAdd ms name frames') ∨ AsksQuery ms frames') : frames = frames' := by
  have hfind : ∀ {fs}, (∃ name, AsksAdd ms name fs) ∨ AsksQuery ms fs →
      Json.find? ms (ascii "frames") = some (.arr fs) := by
    intro fs h
    rcases h with ⟨name, -, -, h⟩ | ⟨-, h⟩ <;> exact h
  have heq := (hfind h).symm.trans (hfind h')
  exact Json.arr.inj (Option.some.inj heq)

theorem WellFormedAdd.checksSuffice {v : Json} (h : WellFormedAdd v) : ChecksSuffice v := by
  obtain ⟨ms, name, frames, rfl, hasks, hall⟩ := h
  exact .inr ⟨ms, rfl, fun _ h => asked_frames_unique h (.inl ⟨name, hasks⟩) ▸ hall⟩

/-- A request whose members pass the checks and that is refused has only
integers in range. -/
theorem checksSuffice_of_repliesWell {s : VideoDB} (hs : VideoDB.Inv s) {J : JsonCpp}
    {er : EqualRange UInt64} {o : HashOrder} {body : Bytes} (h : RepliesWell J er o s body)
    {v : Json} (hparse : J.parse (cStr body) = some v) : ChecksSuffice v := by
  obtain ⟨rv, s', hhandle, -, -, hrefuse⟩ := h
  rw [handle_eq, requestOf, hparse] at hhandle
  rcases understand_cases v with rfl | ⟨ms, rfl⟩ | hraise
  · exact .inl rfl
  · refine .inr ⟨ms, rfl, fun frames hasks => ?_⟩
    by_contra hbad
    have hnot : ∀ P : Json → Prop, (∀ v, P v → ∃ ms frames, v = .obj ms ∧
        ((∃ name, AsksAdd ms name frames) ∨ AsksQuery ms frames) ∧ ∀ x ∈ frames, IsUInt64 x) →
        ¬ Holds J P body := by
      intro P hP h
      obtain ⟨v, hv, hPv⟩ := h
      obtain ⟨ms', frames', rfl, hasks', hall⟩ := hP v hPv
      rw [hparse] at hv
      cases hv
      exact hbad (asked_frames_unique hasks hasks' ▸ hall)
    have hnotadd : ¬ Holds J WellFormedAdd body := by
      refine hnot _ fun v h => ?_
      obtain ⟨ms, name, frames, rfl, h, hall⟩ := h
      exact ⟨ms, frames, rfl, .inl ⟨name, h⟩, hall⟩
    have hnotquery : ¬ Holds J WellFormedQuery body := by
      refine hnot _ fun v h => ?_
      obtain ⟨ms, frames, rfl, h, hall⟩ := h
      exact ⟨ms, frames, rfl, .inr h, hall⟩
    -- what was understood is carried out without a message
    have hdone : ∀ r, answer er o s (.ok r) ≠ some (rv, s') := by
      intro r hr
      obtain ⟨rv', s₁, hcarry, hfine, -⟩ := carryOut_spec hs er o r
      have hsame := hcarry.symm.trans hr
      cases hsame
      exact hfine (hrefuse hnotadd hnotquery)
    rcases understand_obj ms with ⟨msg, -, hadd, hquery⟩ | ⟨name, frames', -, heq⟩ |
      ⟨frames', -, heq⟩
    · rcases hasks with ⟨name, h⟩ | h
      · exact hadd name frames h
      · exact hquery frames h
    · simp only [heq, Option.bind_map, Option.bind_eq_some_iff, Function.comp_apply] at hhandle
      obtain ⟨fs, -, h⟩ := hhandle
      exact hdone _ h
    · simp only [heq, Option.bind_map, Option.bind_eq_some_iff, Function.comp_apply] at hhandle
      obtain ⟨fs, -, h⟩ := hhandle
      exact hdone _ h
  · simp [hraise] at hhandle

/-- A well-formed body is understood, carried out and answered. -/
theorem repliesWell_of_request {s : VideoDB} (hs : VideoDB.Inv s) {J : JsonCpp} {body : Bytes}
    {r : Request} (hr : requestOf J body = some (.ok r))
    (hwf : Holds J WellFormedAdd body ∨
      (Holds J WellFormedQuery body ∧ ∃ frames, r = .query frames))
    (er : EqualRange UInt64) (o : HashOrder) : RepliesWell J er o s body := by
  obtain ⟨rv, s', hcarry, -, hsame⟩ := carryOut_spec hs er o r
  have hhandle : handle J er o s body = some (rv, s') := by
    rw [handle_eq, hr]
    exact hcarry
  refine ⟨rv, s', hhandle, by rw [process, hhandle]; rfl, fun hadd => ?_, fun hadd hquery => ?_⟩
  · rcases hwf with hwf | ⟨-, frames, hframes⟩
    · exact absurd hwf hadd
    · exact hsame frames hframes
  · rcases hwf with hwf | ⟨hwf, -⟩
    · exact absurd hwf hadd
    · exact absurd hwf hquery

theorem repliesWell_of_checksSuffice {s : VideoDB} (hs : VideoDB.Inv s) {J : JsonCpp}
    {body : Bytes} {v : Json} (hparse : J.parse (cStr body) = some v) (h : ChecksSuffice v)
    (er : EqualRange UInt64) (o : HashOrder) : RepliesWell J er o s body := by
  have hrequest : requestOf J body = understand v := by rw [requestOf, hparse]
  rcases h with rfl | ⟨ms, rfl, hall⟩
  · exact repliesWell_of_error hrequest er o s
  · rcases understand_obj ms with ⟨msg, herr, -⟩ | ⟨name, frames, hasks, heq⟩ |
      ⟨frames, hasks, heq⟩
    · exact repliesWell_of_error (hrequest.trans herr) er o s
    · have hgood := hall frames (.inl ⟨name, hasks⟩)
      obtain ⟨fs, hfs⟩ := decodeFrames_isSome hgood
      have hr : requestOf J body = some (.ok (.add name fs)) := by
        rw [hrequest, heq, hfs, Option.map_some]
      exact repliesWell_of_request hs hr
        (.inl ⟨_, hparse, ms, name, frames, rfl, hasks, hgood⟩) er o
    · have hgood := hall frames (.inr hasks)
      obtain ⟨fs, hfs⟩ := decodeFrames_isSome hgood
      have hr : requestOf J body = some (.ok (.query fs)) := by
        rw [hrequest, heq, hfs, Option.map_some]
      exact repliesWell_of_request hs hr
        (.inr ⟨⟨_, hparse, ms, frames, rfl, hasks, hgood⟩, fs, rfl⟩) er o

/-- Every request gets a proper reply, and only a well-formed add changes
the store, exactly if the checks that `Process` makes suffice for it. -/
theorem repliesWell_iff {s : VideoDB} (hs : VideoDB.Reachable s) (J : JsonCpp)
    (er : EqualRange UInt64) (o : HashOrder) (body : Bytes) :
    RepliesWell J er o s body ↔ ∀ v, J.parse (cStr body) = some v → ChecksSuffice v := by
  constructor
  · intro h v hparse
    exact checksSuffice_of_repliesWell hs.inv h hparse
  · intro h
    cases hparse : J.parse (cStr body) with
    | none => exact repliesWell_of_error (by rw [requestOf, hparse]) er o s
    | some v => exact repliesWell_of_checksSuffice hs.inv hparse (h v hparse) er o

/-- The library on the body `text`, which holds the value `v`. -/
def parsesOnly (text : Bytes) (v : Json) : JsonCpp where
  parse t := if t = text then some v else none
  write _ := []

theorem parse_parsesOnly {text : Bytes} (h : 0 ∉ text) (v : Json) :
    (parsesOnly text v).parse (cStr text) = some v := by
  rw [cStr, takeWhile_ne_zero h]
  exact if_pos rfl

/-- The add of the video `w` with the single frame 2. -/
def addW : Json := .obj [(ascii "frames", .arr [.int 2]), (ascii "name", .str (ascii "w")),
  (ascii "type", .str (ascii "add"))]

def addWText : Bytes := ascii "\x7b\"frames\":[2],\"name\":\"w\",\"type\":\"add\"\x7d"

theorem parse_addW : (parsesOnly addWText addW).parse (cStr addWText) = some addW :=
  parse_parsesOnly (by decide) addW

theorem wellFormedAdd_addW : WellFormedAdd addW := by
  refine ⟨_, ascii "w", [.int 2], rfl, ⟨rfl, rfl, rfl⟩, fun x hx => ?_⟩
  exact ⟨2, List.mem_singleton.mp hx, by norm_num, by norm_num⟩

/-- Another video beside a stored one. -/
theorem repliesWell_addW : ∃ s, s.content = [(ascii "v", [1])] ∧
    Holds (parsesOnly addWText addW) WellFormedAdd addWText ∧
    RepliesWell (parsesOnly addWText addW) default default s addWText := by
  obtain ⟨s, hs, hcontent⟩ := VideoDB.addReached_single (ascii "v") [1]
  refine ⟨s, hcontent, ⟨addW, parse_addW, wellFormedAdd_addW⟩, ?_⟩
  refine (repliesWell_iff hs.reachable _ default default _).mpr fun v hv => ?_
  rw [parse_addW, Option.some.injEq] at hv
  exact hv ▸ wellFormedAdd_addW.checksSuffice

/-- An array as the root makes `Process` raise. -/
theorem array_root_raises :
    let J := parsesOnly (ascii "[]") (.arr [])
    handle J default default VideoDB.fresh (ascii "[]") = none ∧
      ¬ RepliesWell J default default VideoDB.fresh (ascii "[]") := by
  intro J
  have hparse : J.parse (cStr (ascii "[]")) = some (.arr []) := parse_parsesOnly (by decide) _
  have hnone : handle J default default VideoDB.fresh (ascii "[]") = none := by
    rw [handle, hparse]; rfl
  refine ⟨hnone, fun h => ?_⟩
  obtain ⟨rv, s', hhandle, -⟩ := h
  rw [hnone] at hhandle
  cases hhandle

/-! ## The reply code -/

/-- The request is carried out by the step from `s` to `s'`: a video is
added, or a query is answered. -/
def CarriedOut (s s' : VideoDB) : Except String Request → Prop
  | .error _ => False
  | .ok (.add name frames) => s'.catalogue.videos = (name, frames) ::ₘ s.catalogue.videos
  | .ok (.query _) => True

/-- The protocol comment: the code is 0 if the request was carried out and
-1 otherwise, and a code other than 0 comes with a message. -/
def Obeys (J : JsonCpp) (s s' : VideoDB) (body : Bytes) (rv : Json) : Prop :=
  ∃ r ms code, requestOf J body = some r ∧ rv = .obj ms ∧
    Json.find? ms (ascii "code") = some (.int code) ∧
    (CarriedOut s s' r → code = 0) ∧ (¬ CarriedOut s s' r → code = -1) ∧
    (code ≠ 0 → ∃ msg, Json.find? ms (ascii "msg") = some (.str msg))

theorem toInt_eq_zero_iff {n : Nat} : toInt n = 0 ↔ n % 2 ^ 32 = 0 := by
  unfold toInt
  split <;> omega

/-- A reply without a message obeys exactly if its code is 0 and the request
was carried out. -/
theorem obeys_of_no_msg {J : JsonCpp} {s s' : VideoDB} {body : Bytes} {r : Except String Request}
    {ms : Members} {c : Int} (hr : requestOf J body = some r)
    (hcode : Json.find? ms (ascii "code") = some (.int c))
    (hmsg : Json.find? ms (ascii "msg") = none) :
    Obeys J s s' body (.obj ms) ↔ c = 0 ∧ CarriedOut s s' r := by
  constructor
  · intro h
    obtain ⟨r', ms', code, hr', hms, hcode', -, hneg, hmsg'⟩ := h
    cases hms
    rw [hr, Option.some.injEq] at hr'
    subst hr'
    rw [hcode, Option.some.injEq, Json.int.injEq] at hcode'
    subst hcode'
    have hzero : c = 0 := by
      by_contra hne
      obtain ⟨msg, hfound⟩ := hmsg' hne
      rw [hmsg] at hfound
      cases hfound
    refine ⟨hzero, ?_⟩
    by_contra hnot
    have hcode := hneg hnot
    omega
  · intro h
    obtain ⟨rfl, hcarried⟩ := h
    exact ⟨r, ms, 0, hr, rfl, hcode, fun _ => rfl, fun h => absurd hcarried h,
      fun h => absurd rfl h⟩

/-- A reply obeys the protocol, unless it rejects an add for its name, or
its query has matches (whose number is a multiple of 2^32 never). -/
theorem obeys_iff {s : VideoDB} (hs : VideoDB.Reachable s) {J : JsonCpp} {er : EqualRange UInt64}
    {o : HashOrder} {body : Bytes} {rv : Json} {s' : VideoDB}
    (h : handle J er o s body = some (rv, s')) :
    Obeys J s s' body rv ↔
      (∀ name frames, requestOf J body = some (.ok (.add name frames)) →
        name ∉ s.catalogue.names) ∧
      ∀ frames, requestOf J body = some (.ok (.query frames)) →
        (s.catalogue.scan er frames).card % 2 ^ 32 = 0 := by
  rw [handle_eq, Option.bind_eq_some_iff] at h
  obtain ⟨r, hr, hanswer⟩ := h
  cases r with
  | error msg =>
      cases hanswer
      obtain ⟨ms, m, hms, hcode, hmsg⟩ := refusal_badRpl msg
      have hobeys : Obeys J s s body (badRpl msg) :=
        ⟨_, ms, -1, hr, hms, hcode, fun h => h.elim, fun _ => rfl, fun _ => ⟨m, hmsg⟩⟩
      simp [hr, hobeys]
  | ok r =>
      cases r with
      | add name frames =>
          rcases carryOut_add hs.inv er o name frames with ⟨hmem, hcarry⟩ |
            ⟨hnew, s₁, hcarry, hvideos⟩
          · have hsame := hcarry.symm.trans hanswer
            cases hsame
            rw [addReply, obeys_of_no_msg hr (Json.find?_set_self _ _ _) (find_msg_code _), hr]
            simp [hmem]
          · have hsame := hcarry.symm.trans hanswer
            cases hsame
            rw [addReply, obeys_of_no_msg hr (Json.find?_set_self _ _ _) (find_msg_code _), hr]
            simp [hnew, CarriedOut, hvideos]
      | query frames =>
          obtain ⟨ms, hcarry, hcode, hmsg⟩ := carryOut_query hs.inv er o frames
          have hsame := hcarry.symm.trans hanswer
          cases hsame
          rw [obeys_of_no_msg hr hcode hmsg, toInt_eq_zero_iff, hr]
          simp [CarriedOut]

/-- The add of another video is carried out, and its reply says so. -/
theorem obeys_addW : ∃ s s', s.content = [(ascii "v", [1])] ∧
    handle (parsesOnly addWText addW) default default s addWText = some (addReply 0, s') ∧
    s'.catalogue.videos = {(ascii "w", [2]), (ascii "v", [1])} ∧
    Obeys (parsesOnly addWText addW) s s' addWText (addReply 0) := by
  obtain ⟨s, hs, hcontent⟩ := VideoDB.addReached_single (ascii "v") [1]
  have hvideos : s.catalogue.videos = {(ascii "v", [1])} := congrArg _ hcontent
  have hnew : ascii "w" ∉ s.catalogue.names := by
    rw [Catalogue.names, hvideos]
    decide
  have hrequest : requestOf (parsesOnly addWText addW) addWText
      = some (.ok (.add (ascii "w") [2])) := by
    rw [requestOf, parse_addW]
    rfl
  rcases carryOut_add hs.reachable.inv default default (ascii "w") [2] with ⟨hmem, -⟩ |
    ⟨-, s', hcarry, hadded⟩
  · exact absurd hmem hnew
  have hhandle : handle (parsesOnly addWText addW) default default s addWText
      = some (addReply 0, s') := by
    rw [handle_eq, hrequest]
    exact hcarry
  refine ⟨s, s', hcontent, hhandle, by rw [hadded, hvideos]; rfl, ?_⟩
  refine (obeys_iff hs.reachable hhandle).mpr ⟨fun name frames h => ?_, fun frames h => ?_⟩
  · rw [hrequest] at h
    cases h
    exact hnew
  · rw [hrequest] at h
    cases h

/-- The two requests about the video `v` with the single frame 1. -/
def addV : Json := .obj [(ascii "frames", .arr [.int 1]), (ascii "name", .str (ascii "v")),
  (ascii "type", .str (ascii "add"))]

def queryV : Json := .obj [(ascii "frames", .arr [.int 1]),
  (ascii "type", .str (ascii "query_duplicate"))]

/-- With `v` stored, adding it again is answered by -1 without a message,
and querying it by the code 1. -/
theorem stored_video_breaks_protocol : ∃ s, VideoDB.Reachable s ∧ s.content = [(ascii "v", [1])] ∧
    (let body := ascii "\x7b\"frames\":[1],\"name\":\"v\",\"type\":\"add\"\x7d"
     handle (parsesOnly body addV) default default s body = some (addReply (-1), s) ∧
      ¬ Obeys (parsesOnly body addV) s s body (addReply (-1))) ∧
    (let body := ascii "\x7b\"frames\":[1],\"type\":\"query_duplicate\"\x7d"
     ∃ ms, handle (parsesOnly body queryV) default default s body = some (.obj ms, s) ∧
      Json.find? ms (ascii "code") = some (.int 1) ∧
      ¬ Obeys (parsesOnly body queryV) s s body (.obj ms)) := by
  obtain ⟨s, hs, hcontent⟩ := VideoDB.addReached_single (ascii "v") [1]
  refine ⟨s, hs.reachable, hcontent, ?_, ?_⟩
  · intro body
    have hrequest : requestOf (parsesOnly body addV) body
        = some (.ok (.add (ascii "v") [1])) := by
      rw [requestOf, parse_parsesOnly (by decide)]
      rfl
    have hmem : ascii "v" ∈ s.catalogue.names := by
      rw [VideoDB.names_catalogue, hcontent]
      simp
    rcases carryOut_add hs.reachable.inv default default (ascii "v") [1] with ⟨-, h⟩ | ⟨hnew, -⟩
    · refine ⟨by rw [handle_eq, hrequest]; exact h, fun hobeys => ?_⟩
      rw [addReply,
        obeys_of_no_msg hrequest (Json.find?_set_self _ _ _) (find_msg_code _)] at hobeys
      cases hobeys.1
    · exact absurd hmem hnew
  · intro body
    have hrequest : requestOf (parsesOnly body queryV) body = some (.ok (.query [1])) := by
      rw [requestOf, parse_parsesOnly (by decide)]
      rfl
    have hcard : (s.catalogue.scan default [1]).card = 1 := by
      have hvideos : s.catalogue.videos = {(ascii "v", [1])} := congrArg _ hcontent
      rw [Catalogue.scan, hvideos]
      decide +kernel
    obtain ⟨ms, h, hcode, hmsg⟩ := carryOut_query hs.reachable.inv default default [1]
    have hone : toInt (s.catalogue.scan default [1]).card = 1 := by rw [hcard]; decide
    rw [hone] at hcode
    refine ⟨ms, by rw [handle_eq, hrequest]; exact h, hcode, fun hobeys => ?_⟩
    rw [obeys_of_no_msg hrequest hcode hmsg] at hobeys
    cases hobeys.1

end VideoMatch.Server
