/-
VideoMatch.Browse.ParseTheorems — what the parser makes of a request,
however the network cuts it.

The connection is in one of two phases while it reads: it has some bytes of
the header, or it knows the head and has some bytes of the body. `Phase.read`
is one read in these terms, and `feed_agrees` says that the connection does
nothing else, new or after a response. What the header says is `headOf`, a
function of all the bytes that have arrived when the header is complete, some
of the body among them.
-/
import VideoMatch.Browse.HttpConnection

namespace VideoMatch.Browse

open VideoMatch.Cxx

namespace HttpConnection

/-! ## Heads -/

/-- The method, and where the path starts. -/
def methodOf (buf : Bytes) : Option (RequestType × Nat) :=
  if buf.take 4 = ascii "GET " then some (.HTTP_GET, 4)
  else if buf.take 5 = ascii "POST " then some (.HTTP_POST, 5)
  else none

/-- The number behind the first `Content-Length: `, if the line ends within
16 bytes. -/
def announced (buf : Bytes) : Option Int := do
  let p ← find buf (ascii "Content-Length: ") 0
  let q ← find buf CRLF (p + 16)
  if q - (p + 16) > 16 then none else some (strtol ((buf.drop (p + 16)).take q))

/-- What a header says: the method, the path and, for a `POST`, how many
bytes of body to read. -/
structure Head where
  type : RequestType
  path : Bytes
  size : Nat
  deriving DecidableEq

def headOf (buf : Bytes) : Option Head := do
  let (type, p) ← methodOf buf
  let q ← find buf (ascii " HTTP/1.") p
  let path := (buf.drop p).take (q - p)
  if type = .HTTP_POST then (announced buf).map fun n => ⟨type, path, (n % 2 ^ 32).toNat⟩
  else some ⟨type, path, 0⟩

/-- Where the method and the path of a head come from. -/
theorem path_of_headOf {buf : Bytes} {h : Head} (hs : headOf buf = some h) :
    ∃ p q, methodOf buf = some (h.type, p) ∧ find buf (ascii " HTTP/1.") p = some q ∧
      h.path = (buf.drop p).take (q - p) := by
  simp only [headOf, Option.bind_eq_bind, Option.bind_eq_some_iff] at hs
  obtain ⟨⟨type, p⟩, hmethod, q, hq, hs⟩ := hs
  refine ⟨p, q, ?_⟩
  by_cases hpost : type = .HTTP_POST
  · simp only [hpost, if_true, Option.map_eq_some_iff] at hs
    obtain ⟨n, -, rfl⟩ := hs
    exact ⟨by rw [hmethod, hpost], hq, rfl⟩
  · simp only [hpost, if_false, Option.some.injEq] at hs
    subst hs
    exact ⟨hmethod, hq, rfl⟩

theorem methodOf_append {s : Bytes} (t : Bytes) {r : RequestType × Nat}
    (h : methodOf s = some r) : methodOf (s ++ t) = some r := by
  unfold methodOf at h ⊢
  by_cases hget : s.take 4 = ascii "GET "
  · have hlen : 4 ≤ s.length := by
      have := congrArg List.length hget
      simp [ascii] at this
      omega
    simpa [hget, List.take_append_of_le_length hlen] using h
  · by_cases hpost : s.take 5 = ascii "POST "
    · have hlen : 5 ≤ s.length := by
        have := congrArg List.length hpost
        simp [ascii] at this
        omega
      have hget' : ¬ (s ++ t).take 4 = ascii "GET " := by
        rwa [List.take_append_of_le_length (by omega)]
      simpa [hget, hget', hpost, List.take_append_of_le_length hlen] using h
    · simp [hget, hpost] at h

/-- A number stays announced when more arrives. -/
theorem announced_append {s : Bytes} (t : Bytes) {n : Int} (h : announced s = some n) :
    ∃ n', announced (s ++ t) = some n' ∧ (n ≠ 0 → s.getLast? = some 10 → n' = n) := by
  simp only [announced, Option.bind_eq_bind, Option.bind_eq_some_iff,
    Option.ite_none_left_eq_some, Option.some.injEq] at h
  obtain ⟨p, hp, q, hq, hshort, rfl⟩ := h
  have hmore : announced (s ++ t) = some (strtol (((s ++ t).drop (p + 16)).take q)) := by
    simp only [announced, Option.bind_eq_bind, find_append t hp, find_append t hq,
      Option.bind_some, if_neg hshort]
  refine ⟨_, hmore, fun hne hlast => ?_⟩
  have hle := (find_bounds hq).1
  have hlen := (find_bounds hq).2
  have hdrop : p + 16 < s.length := by
    simp [CRLF, ascii] at hlen
    omega
  rw [List.drop_append_of_le_length hdrop.le, List.take_append]
  by_cases hfull : q ≤ (s.drop (p + 16)).length
  · rw [Nat.sub_eq_zero_of_le hfull, List.take_zero, List.append_nil]
  · have hwhole : (s.drop (p + 16)).take q = s.drop (p + 16) := List.take_of_length_le (by omega)
    rw [hwhole] at hne ⊢
    refine strtol_append _ hne fun b hb => ?_
    rw [List.getLast?_drop, if_neg (by omega), hlast] at hb
    cases hb
    rfl

/-- A path stays the same when more arrives. -/
theorem path_append {s : Bytes} (t : Bytes) {p q : Nat}
    (hq : find s (ascii " HTTP/1.") p = some q) :
    ((s ++ t).drop p).take (q - p) = (s.drop p).take (q - p) := by
  have hbounds := find_bounds hq
  rw [List.drop_append_of_le_length (by omega),
    List.take_append_of_le_length (by rw [List.length_drop]; omega)]

/-- A head stays a head when more arrives, with the same method and path. -/
theorem headOf_append {s : Bytes} (t : Bytes) {h : Head} (hs : headOf s = some h) :
    ∃ h', headOf (s ++ t) = some h' ∧ h'.type = h.type ∧ h'.path = h.path ∧
      (h.size ≠ 0 → s.getLast? = some 10 → h'.size = h.size) := by
  simp only [headOf, Option.bind_eq_bind, Option.bind_eq_some_iff] at hs
  obtain ⟨⟨type, p⟩, hmethod, q, hq, hs⟩ := hs
  have hpath := path_append t hq
  by_cases hpost : type = .HTTP_POST
  · simp only [hpost, if_true, Option.map_eq_some_iff] at hs
    obtain ⟨n, hn, rfl⟩ := hs
    obtain ⟨n', hn', hsame⟩ := announced_append t hn
    have hmore : headOf (s ++ t)
        = some ⟨type, ((s ++ t).drop p).take (q - p), (n' % 2 ^ 32).toNat⟩ := by
      simp only [headOf, methodOf_append t hmethod, find_append t hq, hpost, hn',
        Option.bind_eq_bind, Option.bind_some, if_true, Option.map_some]
    refine ⟨_, hmore, hpost, hpath, fun hne hlast => ?_⟩
    have hn0 : n ≠ 0 := by
      rintro rfl
      simp at hne
    show (n' % 2 ^ 32).toNat = (n % 2 ^ 32).toNat
    rw [hsame hn0 hlast]
  · simp only [hpost, if_false, Option.some.injEq] at hs
    subst hs
    have hmore : headOf (s ++ t) = some ⟨type, ((s ++ t).drop p).take (q - p), 0⟩ := by
      simp only [headOf, methodOf_append t hmethod, find_append t hq, hpost,
        Option.bind_eq_bind, Option.bind_some, if_false]
    exact ⟨_, hmore, rfl, hpath, fun hne => absurd rfl hne⟩

/-! ## Phases -/

/-- What came of a request: it goes to the handler or the socket is closed. -/
inductive Outcome where
  | accepted (type : RequestType) (path post : Bytes)
  | rejected
  deriving DecidableEq

/-- How far the parser is: the bytes of the header so far, or the head and
the bytes of the body so far. -/
inductive Phase where
  | header (buf : Bytes)
  | body (path : Bytes) (size : Nat) (post : Bytes)

namespace Phase

/-- The body so far is `post`. The exception is that the parser is done. -/
def collect (path : Bytes) (size : Nat) (post : Bytes) : Except Outcome Phase :=
  if size ≤ post.length then .error (.accepted .HTTP_POST path post)
  else .ok (.body path size post)

/-- The header is complete, and `post` has arrived with it. -/
def enter : Option Head → Bytes → Except Outcome Phase
  | some h, post =>
      if h.type = .HTTP_POST then collect h.path h.size post
      else .error (.accepted h.type h.path [])
  | none, _ => .error .rejected

/-- One read. -/
def read : Phase → Bytes → Except Outcome Phase
  | .header p, r =>
      match find (p ++ r) (ascii "\r\n\r\n") 0 with
      | some k => enter (headOf (p ++ r)) ((p ++ r).drop (k + 4))
      | none =>
          if (p ++ r).length > 4096 then .error .rejected else .ok (.header (p ++ r))
  | .body path size post, r => collect path size (post ++ r)

/-- The connection is in this phase. -/
def Shows (c : HttpConnection) : Phase → Prop
  | .header buf => c.state = .kReadingHeader ∧ c.request = buf ∧ c.post = []
  | .body path size post => c.state = .kReadingPost ∧ c.type = .HTTP_POST ∧ c.path = path ∧
      c.postsize = size ∧ c.post = post

/-- What a read of the connection shows. -/
def Agrees : Reading → Except Outcome Phase → Prop
  | .parsed c, e => e = .error (.accepted c.type c.path c.post)
  | .more c, e => ∃ p, e = .ok p ∧ Shows c p
  | .closed, e => e = .error .rejected

end Phase

/-- The reads that come in until the request is parsed or refused. -/
def feed : HttpConnection → List Bytes → Reading
  | c, [] => .more c
  | c, r :: rs =>
      match c.handleRead (some r) with
      | .more c => feed c rs
      | done => done

/-! ## The connection goes through the phases -/

@[simp] theorem goOn_zero (c : HttpConnection) :
    goOn (0, c) = .parsed { c with state := .kProcessing } := rfl

@[simp] theorem goOn_one (c : HttpConnection) : goOn (1, c) = .more c := rfl

@[simp] theorem goOn_refused (c : HttpConnection) : goOn (-1, c) = .closed := rfl

theorem parseLength_eq (c : HttpConnection) : c.parseLength =
    match announced c.request with
    | none => (-1, c)
    | some n =>
        let c' := { c with postsize := (n % 2 ^ 32).toNat }
        if c.post.length < (n % 2 ^ 32).toNat then (1, c') else (0, c') := by
  unfold parseLength announced
  cases find c.request (ascii "Content-Length: ") 0 with
  | none => rfl
  | some p =>
      simp only [Option.bind_eq_bind, Option.bind_some]
      cases find c.request CRLF (p + 16) with
      | none => rfl
      | some q =>
          by_cases hlong : q - (p + 16) > 16
          · simp [hlong]
          · simp only [hlong, if_false, atoi, intOfLong_emod, Option.bind_some]

/-- The body has arrived in part or as a whole. -/
theorem collect_agrees {c : HttpConnection} (hstate : c.state = .kReadingPost)
    (htype : c.type = .HTTP_POST) :
    Phase.Agrees (goOn (if c.post.length < c.postsize then (1, c) else (0, c)))
      (Phase.collect c.path c.postsize c.post) := by
  by_cases hmore : c.post.length < c.postsize
  · have hnot : ¬ c.postsize ≤ c.post.length := by omega
    simp only [hmore, if_true, goOn_one, Phase.collect, hnot, if_false]
    exact ⟨_, rfl, hstate, htype, rfl, rfl, rfl⟩
  · have hle : c.postsize ≤ c.post.length := by omega
    simp [hmore, Phase.collect, hle, Phase.Agrees, htype]

/-- The rest of the header, from a buffer whose method is known. -/
theorem parsePath_agrees {c : HttpConnection} {p : Nat}
    (hmethod : methodOf c.request = some (c.type, p))
    (hstate : c.state = .kReadingPost ↔ c.type = .HTTP_POST)
    (hget : c.type ≠ .HTTP_POST → c.post = []) :
    Phase.Agrees (goOn (c.parsePath p)) (Phase.enter (headOf c.request) c.post) := by
  simp only [headOf, hmethod, Option.bind_eq_bind, Option.bind_some, parsePath]
  cases find c.request (ascii " HTTP/1.") p with
  | none => rfl
  | some q =>
      by_cases htype : c.type = .HTTP_POST
      · simp only [if_pos (hstate.mpr htype), if_pos htype, parseLength_eq, Option.bind_some]
        cases announced c.request with
        | none => rfl
        | some n =>
            obtain ⟨c', hc'⟩ : ∃ c' : HttpConnection, c' = { c with
              path := (c.request.drop p).take (q - p)
              postsize := (n % 2 ^ 32).toNat } := ⟨_, rfl⟩
            have hcollect := collect_agrees (c := c') (by rw [hc']; exact hstate.mpr htype)
              (by rw [hc']; exact htype)
            subst hc'
            simpa [Phase.enter, htype] using hcollect
      · have hnot : ¬ c.state = .kReadingPost := fun h => htype (hstate.mp h)
        simp [hnot, htype, Phase.enter, Phase.Agrees, hget htype]

/-- A new connection waits for a request. -/
theorem shows_start (state : State) (type : RequestType) (httpRet : Int) (postsize : Nat) :
    Phase.Shows (new state type httpRet postsize).start (.header []) := ⟨rfl, rfl, rfl⟩

/-- So does one whose response has been written. -/
theorem shows_handleWrite (c : HttpConnection) : Phase.Shows c.handleWrite (.header []) :=
  ⟨rfl, rfl, rfl⟩

/-- One read of the connection is one read of its phase. -/
theorem handleRead_agrees {c : HttpConnection} {p : Phase} (h : Phase.Shows c p) (r : Bytes) :
    Phase.Agrees (c.handleRead (some r)) (p.read r) := by
  cases p with
  | header buf =>
      obtain ⟨hstate, rfl, hpost⟩ := h
      simp only [handleRead, tryParseRequest, hstate, if_true, Phase.read]
      cases find (c.request ++ r) (ascii "\r\n\r\n") 0 with
      | none =>
          by_cases hlong : (c.request ++ r).length > 4096
          · simp only [hlong, if_true]
            rfl
          · simp only [hlong, if_false]
            exact ⟨_, rfl, rfl, rfl, hpost⟩
      | some k =>
          by_cases hget : (c.request ++ r).take 4 = ascii "GET "
          · have hmethod : methodOf (c.request ++ r) = some (.HTTP_GET, 4) := by
              simp [methodOf, hget]
            have hagrees := parsePath_agrees
              (c := { c with
                state := .kReadingHeader
                request := c.request ++ r
                type := .HTTP_GET })
              hmethod (by simp) fun _ => hpost
            -- the bytes behind the header are not looked at
            cases hhead : headOf (c.request ++ r) with
            | none => simpa [hget, hhead, Phase.enter] using hagrees
            | some h =>
                obtain ⟨p, -, hp, -⟩ := path_of_headOf hhead
                rw [hmethod, Option.some.injEq, Prod.mk.injEq] at hp
                simpa [hget, hhead, Phase.enter, ← hp.1] using hagrees
          · by_cases hpost' : (c.request ++ r).take 5 = ascii "POST "
            · have hmethod : methodOf (c.request ++ r) = some (.HTTP_POST, 5) := by
                simp [methodOf, hget, hpost']
              have hagrees := parsePath_agrees
                (c := { c with
                  request := c.request ++ r
                  type := .HTTP_POST
                  state := .kReadingPost
                  post := (c.request ++ r).drop (k + 4) }) hmethod (by simp) (by simp)
              simpa [hget, hpost'] using hagrees
            · have hnone : headOf (c.request ++ r) = none := by
                simp [headOf, methodOf, hget, hpost']
              simp only [hget, hpost', if_false, hnone]
              rfl
  | body path size post =>
      obtain ⟨hstate, htype, rfl, rfl, rfl⟩ := h
      have hnot : ¬ c.state = .kReadingHeader := by simp [hstate]
      have hagrees := collect_agrees (c := { c with post := c.post ++ r }) hstate htype
      simp only [handleRead, tryParseRequest, if_neg hnot, if_pos hstate, Phase.read]
      by_cases hle : c.postsize ≤ (c.post ++ r).length
      · have hlt : ¬ (c.post ++ r).length < c.postsize := by omega
        simpa only [hle, hlt, ge_iff_le, if_true, if_false] using hagrees
      · have hlt : (c.post ++ r).length < c.postsize := by omega
        simpa only [hle, hlt, ge_iff_le, if_true, if_false] using hagrees

/-- All reads of the connection are all reads of its phase. -/
theorem feed_agrees : ∀ (rs : List Bytes) {c : HttpConnection} {p : Phase}, Phase.Shows c p →
    Phase.Agrees (feed c rs) (rs.foldlM Phase.read p) := by
  intro rs
  induction rs with
  | nil => intro c p h; exact ⟨p, rfl, h⟩
  | cons r rs ih =>
      intro c p h
      have hread := handleRead_agrees h r
      rw [feed, List.foldlM_cons]
      cases hc : c.handleRead (some r) with
      | parsed c' =>
          rw [hc] at hread
          rw [show p.read r = _ from hread]
          rfl
      | closed =>
          rw [hc] at hread
          rw [show p.read r = _ from hread]
          rfl
      | more c' =>
          rw [hc] at hread
          obtain ⟨p', hp', hshows⟩ := hread
          rw [hp']
          exact ih hshows

/-- What the reads come to, if they come to anything. -/
def outcome : Reading → Option Outcome
  | .parsed c => some (.accepted c.type c.path c.post)
  | .more _ => none
  | .closed => some .rejected

/-- The same of the phases. -/
def Phase.outcome : Except Outcome Phase → Option Outcome
  | .error o => some o
  | .ok _ => none

theorem Phase.Agrees.outcome_eq {r : Reading} {e : Except Outcome Phase} (h : Phase.Agrees r e) :
    HttpConnection.outcome r = Phase.outcome e := by
  cases r with
  | parsed c => rw [show e = _ from h]; rfl
  | more c => obtain ⟨p, rfl, -⟩ := h; rfl
  | closed => rw [show e = _ from h]; rfl

end HttpConnection

end VideoMatch.Browse
