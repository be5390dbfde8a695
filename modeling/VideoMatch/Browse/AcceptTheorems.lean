/-
VideoMatch.Browse.AcceptTheorems — when an accepted request is the one that
was sent.

The stream says what was sent: its first line has a method and a path, the
lines up to the first empty one are fields, and a body of the announced
length follows. `AsSent` is this reading of the stream. The parser has
another one. It looks for ` HTTP/1.` and `Content-Length: ` in all bytes
that have arrived, and takes for the body whatever has come behind the
empty line when enough has come (`accepted_spec`).

`accepted_as_sent_iff` says when the two readings are the same: the first
` HTTP/1.` stands on the first line, and the read that completes a `POST`
ends where the body of a `Content-Length` field does.
-/
import VideoMatch.Browse.ParseTheorems

namespace VideoMatch.Browse

open VideoMatch.Cxx

namespace HttpConnection

/-! ## What was sent -/

/-- The end of the header section. -/
def EMPTY_LINE : Bytes := ascii "\r\n\r\n"

/-- The method as the first line spells it. -/
def methodWord : RequestType → Bytes
  | .HTTP_GET => ascii "GET "
  | .HTTP_POST => ascii "POST "
  | _ => []

/-- `l` is the first line of the stream. -/
def FirstLine (s l : Bytes) : Prop := ∃ e, find s CRLF 0 = some e ∧ l = s.take e

/-- `l` is a later line of the header section. -/
def FieldLine (s l : Bytes) : Prop :=
  ∃ pre post k, s = pre ++ CRLF ++ l ++ CRLF ++ post ∧ ¬ CRLF <:+: l ∧
    find s EMPTY_LINE 0 = some k ∧ pre.length + 2 + l.length ≤ k

/-- The line is a `Content-Length` field whose value is the number `n`.
Case does not count in the name, nor blanks around the value. -/
def DeclaresLength (l : Bytes) (n : Nat) : Prop :=
  ∃ name before digits after, l = name ++ [58] ++ before ++ digits ++ after ∧
    caseEq name (ascii "Content-Length") ∧ (∀ b ∈ before ++ after, b = 32 ∨ b = 9) ∧
    digits ≠ [] ∧ (∀ b ∈ digits, isDigit b) ∧ decimalValue digits = n

/-- A field of the header section declares a body of `n` bytes. -/
def Declared (s : Bytes) (n : Nat) : Prop := ∃ l, FieldLine s l ∧ DeclaresLength l n

/-- `b` are the bytes behind the empty line of the header. -/
def Behind (s b : Bytes) : Prop := ∃ k, find s EMPTY_LINE 0 = some k ∧ b = s.drop (k + 4)

/-- The parser is done with the last of these reads. -/
def AcceptedBy (c : HttpConnection) (rs : List Bytes) (c' : HttpConnection) : Prop :=
  ∃ rs₀ r c₀, rs = rs₀ ++ [r] ∧ feed c rs₀ = .more c₀ ∧ c₀.handleRead (some r) = .parsed c'

/-- The request on the connection is the one that the stream spells. -/
structure AsSent (s : Bytes) (c : HttpConnection) : Prop where
  method : c.type = .HTTP_GET ∨ c.type = .HTTP_POST
  requestLine : ∃ version, FirstLine s (methodWord c.type ++ c.path ++ ascii " HTTP/1." ++ version)
  onOneLine : ¬ CRLF <:+: c.path
  body : c.type = .HTTP_POST →
    ∃ n b, Declared s n ∧ Behind s b ∧ n ≤ b.length ∧ c.post = b.take n

/-! ## What the parser takes -/

/-- What the phase has kept of the stream so far. -/
def Phase.Keeps (s : Bytes) : Phase → Prop
  | .header buf => buf = s ∧ find s EMPTY_LINE 0 = none
  | .body path _ post => ∃ p q, methodOf s = some (.HTTP_POST, p) ∧
      find s (ascii " HTTP/1.") p = some q ∧ path = (s.drop p).take (q - p) ∧ Behind s post

/-- What the parser hands on: the path goes up to the first ` HTTP/1.` in
the stream, and everything behind the empty line is the body of a `POST`. -/
structure Taken (s : Bytes) (type : RequestType) (path post : Bytes) : Prop where
  path : ∃ p q, methodOf s = some (type, p) ∧ find s (ascii " HTTP/1.") p = some q ∧
    path = (s.drop p).take (q - p)
  post : type = .HTTP_POST → Behind s post
  closed : ∃ k, find s EMPTY_LINE 0 = some k

theorem Behind.append {s b : Bytes} (h : Behind s b) (r : Bytes) : Behind (s ++ r) (b ++ r) := by
  obtain ⟨k, hk, rfl⟩ := h
  have hle := (find_bounds hk).2
  refine ⟨k, find_append r hk, ?_⟩
  rw [List.drop_append_of_le_length]
  simpa [EMPTY_LINE, ascii] using hle

theorem collect_ok {path post : Bytes} {size : Nat} {p : Phase}
    (h : Phase.collect path size post = .ok p) : p = .body path size post := by
  unfold Phase.collect at h
  split at h
  · cases h
  · cases h
    rfl

theorem collect_accepted {path post path' post' : Bytes} {size : Nat} {type : RequestType}
    (h : Phase.collect path size post = .error (.accepted type path' post')) :
    type = .HTTP_POST ∧ path' = path ∧ post' = post := by
  unfold Phase.collect at h
  split at h
  · cases h
    exact ⟨rfl, rfl, rfl⟩
  · cases h

/-- A read that leaves the parser waiting. -/
theorem Phase.Keeps.read {s r : Bytes} {p p' : Phase} (h : Phase.Keeps s p)
    (hr : p.read r = .ok p') : Phase.Keeps (s ++ r) p' := by
  cases p with
  | header buf =>
      obtain ⟨rfl, -⟩ := h
      simp only [Phase.read] at hr
      cases hend : find (buf ++ r) (ascii "\r\n\r\n") 0 with
      | none =>
          simp only [hend] at hr
          split at hr
          · cases hr
          · cases hr
            exact ⟨rfl, hend⟩
      | some k =>
          simp only [hend] at hr
          cases hhead : headOf (buf ++ r) with
          | none => simp [hhead, Phase.enter] at hr
          | some hd =>
              obtain ⟨p, q, hmethod, hq, hpath⟩ := path_of_headOf hhead
              by_cases hpost : hd.type = .HTTP_POST
              · simp only [hhead, Phase.enter, hpost, if_true] at hr
                rw [hpost] at hmethod
                rw [collect_ok hr]
                exact ⟨p, q, hmethod, hq, hpath, k, hend, rfl⟩
              · simp [hhead, Phase.enter, hpost] at hr
  | body path size post =>
      obtain ⟨p, q, hmethod, hq, rfl, hpost⟩ := h
      rw [collect_ok hr]
      exact ⟨p, q, methodOf_append r hmethod, find_append r hq, (path_append r hq).symm,
        hpost.append r⟩

/-- The read that completes the request. -/
theorem Phase.Keeps.accept {s r path post : Bytes} {type : RequestType} {p : Phase}
    (h : Phase.Keeps s p) (hr : p.read r = .error (.accepted type path post)) :
    Taken (s ++ r) type path post := by
  cases p with
  | header buf =>
      obtain ⟨rfl, -⟩ := h
      simp only [Phase.read] at hr
      cases hend : find (buf ++ r) (ascii "\r\n\r\n") 0 with
      | none =>
          simp only [hend] at hr
          split at hr <;> cases hr
      | some k =>
          simp only [hend] at hr
          cases hhead : headOf (buf ++ r) with
          | none => simp [hhead, Phase.enter] at hr
          | some hd =>
              obtain ⟨p, q, hmethod, hq, hpath⟩ := path_of_headOf hhead
              by_cases hpost : hd.type = .HTTP_POST
              · simp only [hhead, Phase.enter, hpost, if_true] at hr
                obtain ⟨rfl, rfl, rfl⟩ := collect_accepted hr
                rw [hpost] at hmethod
                exact ⟨⟨p, q, hmethod, hq, hpath⟩, fun _ => ⟨k, hend, rfl⟩, k, hend⟩
              · simp only [hhead, Phase.enter, hpost, if_false] at hr
                cases hr
                exact ⟨⟨p, q, hmethod, hq, hpath⟩, fun h => absurd h hpost, k, hend⟩
  | body path size post =>
      obtain ⟨p, q, hmethod, hq, rfl, hpost⟩ := h
      obtain ⟨rfl, rfl, rfl⟩ := collect_accepted hr
      obtain ⟨k, hk, -⟩ := hpost.append r
      exact ⟨⟨p, q, methodOf_append r hmethod, find_append r hq, (path_append r hq).symm⟩,
        fun _ => hpost.append r, k, hk⟩

/-- All reads that leave the parser waiting. -/
theorem Phase.Keeps.feed : ∀ (rs : List Bytes) {s : Bytes} {p p' : Phase}, Phase.Keeps s p →
    rs.foldlM Phase.read p = .ok p' → Phase.Keeps (s ++ rs.flatten) p' := by
  intro rs
  induction rs with
  | nil =>
      intro s p p' h hr
      cases hr
      simpa using h
  | cons r rs ih =>
      intro s p p' h hr
      rw [List.foldlM_cons] at hr
      cases hread : p.read r with
      | error e =>
          rw [hread] at hr
          cases hr
      | ok p₁ =>
          rw [hread] at hr
          have hrest := ih (h.read hread) hr
          rwa [List.append_assoc] at hrest

/-- What a connection that waits for a request accepts. -/
theorem accepted_spec {c c' : HttpConnection} {rs : List Bytes}
    (hc : Phase.Shows c (.header [])) (h : AcceptedBy c rs c') :
    Taken rs.flatten c'.type c'.path c'.post := by
  obtain ⟨rs₀, r, c₀, rfl, hwait, hdone⟩ := h
  have hfeed := feed_agrees rs₀ hc
  rw [hwait] at hfeed
  obtain ⟨p, hp, hshows⟩ := hfeed
  have hread := handleRead_agrees hshows r
  rw [hdone] at hread
  have hkeeps : Phase.Keeps [] (.header []) := ⟨rfl, by decide⟩
  have htaken := (Phase.Keeps.feed rs₀ hkeeps hp).accept hread
  simpa using htaken

/-! ## Both readings -/

/-- Where the two readings are the same. The first ` HTTP/1.` behind the
method stands on the first line, and the reads bring exactly the body that
a `Content-Length` field of a `POST` declares. -/
structure SentPlainly (s : Bytes) : Prop where
  requestLine : ∃ type p q e, methodOf s = some (type, p) ∧
    find s (ascii " HTTP/1.") p = some q ∧ find s CRLF 0 = some e ∧ q + 8 ≤ e
  body : s.take 5 = ascii "POST " →
    ∃ n k, Declared s n ∧ find s EMPTY_LINE 0 = some k ∧ s.length = k + 4 + n

theorem methodOf_cases {s : Bytes} {type : RequestType} {p : Nat}
    (h : methodOf s = some (type, p)) :
    (type = .HTTP_GET ∨ type = .HTTP_POST) ∧ s.take p = methodWord type ∧
      (methodWord type).length = p ∧ (s.take 5 = ascii "POST " ↔ type = .HTTP_POST) := by
  unfold methodOf at h
  by_cases hget : s.take 4 = ascii "GET "
  · rw [if_pos hget] at h
    cases h
    refine ⟨.inl rfl, hget, rfl, fun hpost => ?_, fun heq => by cases heq⟩
    have hfour := congrArg (List.take 4) hpost
    rw [List.take_take, Nat.min_eq_left (by decide), hget] at hfour
    exact absurd hfour (by decide)
  · rw [if_neg hget] at h
    by_cases hpost : s.take 5 = ascii "POST "
    · rw [if_pos hpost] at h
      cases h
      exact ⟨.inr rfl, hpost, rfl, fun _ => rfl, fun _ => hpost⟩
    · rw [if_neg hpost] at h
      cases h

/-- A string as the method, the path, the match and what follows. -/
theorem split_line (t : Bytes) {p q : Nat} (hpq : p ≤ q) :
    t = t.take p ++ (t.drop p).take (q - p) ++ (t.drop q).take 8 ++ t.drop (q + 8) := by
  have hpath : (t.drop p).drop (q - p) = t.drop q := by
    rw [List.drop_drop, Nat.add_sub_cancel' hpq]
  calc t = t.take p ++ t.drop p := (List.take_append_drop p t).symm
    _ = t.take p ++ ((t.drop p).take (q - p) ++ t.drop q) := by
        rw [← hpath, List.take_append_drop (q - p)]
    _ = t.take p ++ ((t.drop p).take (q - p) ++ ((t.drop q).take 8 ++ t.drop (q + 8))) := by
        rw [← List.drop_drop, List.take_append_drop]
    _ = _ := by simp only [List.append_assoc]

/-- A line on which the first ` HTTP/1.` stands. -/
theorem firstLine_eq {s : Bytes} {type : RequestType} {p q e : Nat}
    (hmethod : methodOf s = some (type, p)) (hq : find s (ascii " HTTP/1.") p = some q)
    (hle : q + 8 ≤ e) :
    s.take e = methodWord type ++ (s.drop p).take (q - p) ++ ascii " HTTP/1." ++
      (s.take e).drop (q + 8) := by
  have hpq := (find_bounds hq).1
  have hword := (methodOf_cases hmethod).2.1
  have hpat : (s.drop q).take 8 = ascii " HTTP/1." :=
    (List.prefix_iff_eq_take.mp (find_isPrefix hq)).symm
  have htake : (s.take e).take p = s.take p := by
    rw [List.take_take, Nat.min_eq_left (by omega)]
  have hpath : ((s.take e).drop p).take (q - p) = (s.drop p).take (q - p) := by
    rw [List.drop_take, List.take_take, Nat.min_eq_left (by omega)]
  have hmatch : ((s.take e).drop q).take 8 = (s.drop q).take 8 := by
    rw [List.drop_take, List.take_take, Nat.min_eq_left (by omega)]
  have hsplit := split_line (s.take e) hpq
  rwa [htake, hpath, hmatch, hword, hpat] at hsplit

/-- An accepted request is the one that was sent exactly if its stream was
sent plainly. -/
theorem accepted_as_sent_iff (c c' : HttpConnection) (rs : List Bytes)
    (hc : Phase.Shows c (.header [])) (h : AcceptedBy c rs c') :
    AsSent rs.flatten c' ↔ SentPlainly rs.flatten := by
  obtain ⟨⟨p, q, hmethod, hq, hpath⟩, hpost, -⟩ := accepted_spec hc h
  obtain ⟨htype, -, hword, hfive⟩ := methodOf_cases hmethod
  have hpq := find_bounds hq
  constructor
  · intro hsent
    refine ⟨?_, fun htake => ?_⟩
    · obtain ⟨version, e, he, hline⟩ := hsent.requestLine
      have hlen := congrArg List.length hline
      have hhttp : (ascii " HTTP/1.").length = 8 := rfl
      have hle := List.length_take_le e rs.flatten
      rw [← hline] at hle
      simp only [List.length_append, hword, hpath, List.length_take, List.length_drop, hhttp]
        at hle
      exact ⟨c'.type, p, q, e, hmethod, hq, he, by omega⟩
    · have htype' := hfive.mp htake
      obtain ⟨n, b, hdeclared, ⟨k, hk, rfl⟩, hle, htaken⟩ := hsent.body htype'
      obtain ⟨k', hk', heq⟩ := hpost htype'
      rw [hk, Option.some.injEq] at hk'
      subst hk'
      have hbounds := (find_bounds hk).2
      have hfour : EMPTY_LINE.length = 4 := rfl
      have hlen := congrArg List.length (htaken.symm.trans heq)
      rw [List.length_take, List.length_drop] at hlen
      rw [List.length_drop] at hle
      exact ⟨n, k, hdeclared, hk, by omega⟩
  · intro hplain
    obtain ⟨type', p', q', e, hmethod', hq', he, hle⟩ := hplain.requestLine
    rw [hmethod, Option.some.injEq, Prod.mk.injEq] at hmethod'
    obtain ⟨rfl, rfl⟩ := hmethod'
    rw [hq, Option.some.injEq] at hq'
    subst hq'
    have hline := firstLine_eq hmethod hq hle
    rw [← hpath] at hline
    refine ⟨htype, ⟨_, e, he, hline.symm⟩, fun hinside => ?_, fun htype' => ?_⟩
    · refine find_not_infix (by decide) he (hinside.trans ?_)
      rw [hline]
      exact ⟨methodWord c'.type, ascii " HTTP/1." ++ (rs.flatten.take e).drop (q + 8),
        by simp only [List.append_assoc]⟩
    · obtain ⟨n, k, hdeclared, hk, hlen⟩ := hplain.body (hfive.mpr htype')
      obtain ⟨k', hk', heq⟩ := hpost htype'
      rw [hk, Option.some.injEq] at hk'
      subst hk'
      have hn : (rs.flatten.drop (k + 4)).length = n := by
        rw [List.length_drop, hlen]
        omega
      exact ⟨n, _, hdeclared, ⟨k, hk, rfl⟩, hn.ge, by rw [heq, ← hn, List.take_length]⟩

/-- A `POST` in two reads, on a connection that has answered a `GET`. -/
theorem accepted_as_sent_example :
    ∃ c c', AcceptedBy (new .kProcessing .HTTP_INVALID 0 0).start
        [ascii "GET /a HTTP/1.1\r\n\r\n"] c ∧
      AcceptedBy c.handleWrite
        [ascii "POST /x HTTP/1.1\r\nContent-Length: 2\r\n\r\na", ascii "b"] c' ∧
      AsSent (ascii "POST /x HTTP/1.1\r\nContent-Length: 2\r\n\r\nab") c' := by
  obtain ⟨c, hget⟩ : ∃ c, AcceptedBy (new .kProcessing .HTTP_INVALID 0 0).start
      [ascii "GET /a HTTP/1.1\r\n\r\n"] c :=
    ⟨_, [], ascii "GET /a HTTP/1.1\r\n\r\n", _, rfl, rfl, rfl⟩
  have haccept : AcceptedBy c.handleWrite
      [ascii "POST /x HTTP/1.1\r\nContent-Length: 2\r\n\r\na", ascii "b"] _ :=
    ⟨[ascii "POST /x HTTP/1.1\r\nContent-Length: 2\r\n\r\na"], ascii "b", _, rfl, rfl, rfl⟩
  refine ⟨c, _, hget, haccept, (accepted_as_sent_iff _ _ _ (shows_handleWrite c) haccept).mpr
    ⟨⟨.HTTP_POST, 5, 7, 16, by decide +kernel⟩, fun _ => ⟨2, 35, ?_, by decide +kernel⟩⟩⟩
  exact ⟨ascii "Content-Length: 2",
    ⟨ascii "POST /x HTTP/1.1", ascii "\r\nab", 35, by decide +kernel⟩,
    ascii "Content-Length", [32], ascii "2", [], by decide +kernel⟩

/-- The first line is not looked at by itself: its version may stand on a
later one, and the lines between them become part of the path. -/
theorem path_spans_lines :
    ∃ c', AcceptedBy (new .kProcessing .HTTP_INVALID 0 0).start
        [ascii "GET /a\r\nHost: b HTTP/1.1\r\n\r\n"] c' ∧
      c'.path = ascii "/a\r\nHost: b" ∧
      ¬ AsSent (ascii "GET /a\r\nHost: b HTTP/1.1\r\n\r\n") c' := by
  have haccept : AcceptedBy (new .kProcessing .HTTP_INVALID 0 0).start
      [ascii "GET /a\r\nHost: b HTTP/1.1\r\n\r\n"] _ :=
    ⟨[], ascii "GET /a\r\nHost: b HTTP/1.1\r\n\r\n", _, rfl, rfl, rfl⟩
  refine ⟨_, haccept, rfl, fun hsent => ?_⟩
  exact hsent.onOneLine (by decide)

end HttpConnection

end VideoMatch.Browse
