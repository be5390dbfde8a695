/-
VideoMatch.Browse.ResponseTheorems — a response is read as it was meant.

A client reads a response as a status line, header lines up to an empty one
and a body of the announced length (`http`). What it should read is said by
`sentRet`, `sentHeader` and `sentBody`: the answer of the handler, and where
the handler said nothing what `begin_response` puts in.

The headers go out as they are. So a key or a value with a line end in it,
or a key with a colon, is read as something else; a length that the handler
sets itself must be the right one; and the empty line behind the headers,
which is sent from the place of a temporary that is gone, must still be
there. Nothing else can go wrong (`response_reads_back_iff`).
-/
import VideoMatch.Browse.HttpConnection
import VideoMatch.Cxx.Format
import VideoMatch.Machine.Message

namespace VideoMatch.Browse

open VideoMatch.Cxx VideoMatch.Machine

/-- The number of a `Content-Length`. -/
def lengthOf (value : Bytes) : Option Nat :=
  if value ≠ [] ∧ ∀ b ∈ value, isDigit b = true then some (decimalValue value) else none

/-- How a client reads. -/
def http : Layout UInt8 where
  eol := CRLF
  sep := KV_SEPARATOR
  bodyLength fields := (fields.find? fun f => f.1 = ascii "Content-Length").bind fun f =>
    lengthOf f.2

/-- The status line of a code. -/
def statusLine (ret : Int) : Bytes := (statusCodeStr.getD ret.toNat []).takeWhile (· ≠ 13)

/-- The body of an error that has none. -/
def errorPage (ret : Int) : Bytes :=
  ascii "<html><body><h1>" ++ statusCodeStr.getD ret.toNat [] ++ ascii "</h1></body></html>"

namespace HttpConnection

/-! ## What is meant -/

section

variable (c : HttpConnection)

def sentRet : Int := if 0 ≤ c.httpRet ∧ c.httpRet < HTTP_END then c.httpRet else HTTP_503

/-- An error without a body gets one. -/
def bare : Prop := c.sentRet ≠ HTTP_200 ∧ c.body = []

instance : Decidable c.bare := inferInstanceAs (Decidable (_ ∧ _))

def sentBody : Bytes := if c.bare then errorPage c.sentRet else c.body

/-- The headers that are there in any case. -/
def standing : List (Bytes × Bytes) :=
  [(ascii "Content-Length", decimal c.sentBody.length),
    (ascii "Server", ascii "SimpleWebSvr/1.0"), (ascii "Connection", ascii "Keep-Alive")]

def sentHeader (key : Bytes) : Option Bytes :=
  if key = ascii "Content-Type" ∧ c.bare then some (ascii "text/html")
  else (c.headers.find? key).or (c.standing.lookup key)

/-- No key and no value can be taken for two. -/
def Clean : Prop :=
  ∀ key value, c.headers.find? key = some value → 58 ∉ key ∧ 13 ∉ key ∧ 13 ∉ value

end

/-! ## What is written -/

section

variable {c : HttpConnection}

theorem sentRet_range (c : HttpConnection) : 0 ≤ c.sentRet ∧ c.sentRet < HTTP_END := by
  unfold sentRet
  split
  · next h => exact h
  · decide

theorem statusCodeStr_eq {ret : Int} (h : 0 ≤ ret ∧ ret < HTTP_END) :
    statusCodeStr.getD ret.toNat [] = statusLine ret ++ CRLF ∧ 13 ∉ statusLine ret := by
  obtain ⟨hpos, hlt⟩ := h
  obtain ⟨n, rfl⟩ := Int.eq_ofNat_of_zero_le hpos
  have hn : n < 5 := by simp only [HTTP_END] at hlt; omega
  have hall : ∀ n : Nat, n < 5 →
      statusCodeStr.getD n [] = (statusCodeStr.getD n []).takeWhile (· ≠ 13) ++ CRLF ∧
        13 ∉ (statusCodeStr.getD n []).takeWhile (· ≠ 13) := by decide +kernel
  exact hall n hn

theorem find?_setDefault (c : HttpConnection) (k value key : Bytes) :
    (c.setDefault k value).headers.find? key
      = (c.headers.find? key).or (if key = k then some value else none) := by
  unfold setDefault
  split
  · next hnone =>
      rw [setHeader, UnorderedMap.find?_assign]
      by_cases hkey : key = k
      · simp [hkey, hnone]
      · simp [hkey]
  · next hsome =>
      obtain ⟨v, hv⟩ := Option.ne_none_iff_exists'.mp hsome
      by_cases hkey : key = k
      · simp [hkey, hv]
      · simp [hkey]

/-- One default after the other. -/
theorem setDefaults_spec (key : Bytes) : ∀ (l : List (Bytes × Bytes)) (c : HttpConnection),
    (l.foldl (fun c kv => c.setDefault kv.1 kv.2) c).headers.find? key
        = (c.headers.find? key).or (l.lookup key) ∧
      (l.foldl (fun c kv => c.setDefault kv.1 kv.2) c).httpRet = c.httpRet ∧
      (l.foldl (fun c kv => c.setDefault kv.1 kv.2) c).body = c.body := by
  intro l
  induction l with
  | nil => intro c; simp
  | cons kv l ih =>
      intro c
      obtain ⟨k, value⟩ := kv
      obtain ⟨hheaders, hret, hbody⟩ := ih (c.setDefault k value)
      rw [List.foldl_cons, hheaders, hret, hbody, find?_setDefault, Option.or_assoc]
      refine ⟨?_, ?_, ?_⟩
      · by_cases hkey : key = k
        · simp [hkey]
        · simp [List.lookup_cons, hkey, beq_false_of_ne hkey]
      · unfold setDefault
        split <;> rfl
      · unfold setDefault
        split <;> rfl

theorem clampRet_eq (c : HttpConnection) : c.clampRet = { c with httpRet := c.sentRet } := by
  unfold clampRet sentRet
  by_cases hout : c.httpRet < 0 ∨ c.httpRet ≥ HTTP_END
  · rw [if_pos hout, if_neg (by omega)]
  · rw [if_neg hout, if_pos (by omega)]

/-- The error page. -/
theorem defaultBody_eq (c : HttpConnection) : c.clampRet.defaultBody
    = if c.bare then
        { c with
          httpRet := c.sentRet
          body := errorPage c.sentRet
          headers := c.headers.assign (ascii "Content-Type") (ascii "text/html") }
      else { c with httpRet := c.sentRet } := by
  rw [clampRet_eq]
  rfl

/-- A length fits the buffer of `set_header`. -/
theorem longValue_eq {n : Nat} (h : n < 2 ^ 63) : longValue n = decimal n := by
  have hlen : (decimal n).length ≤ 23 := decimal_length_le (by decide) (by omega)
  exact List.take_of_length_le hlen

/-- The connection as it is written. -/
theorem beginResponse_spec (hsize : c.sentBody.length < 2 ^ 63) :
    c.beginResponse = (some c.beginResponse.2.response, c.beginResponse.2) ∧
      c.beginResponse.2.httpRet = c.sentRet ∧ c.beginResponse.2.body = c.sentBody ∧
      ∀ key, c.beginResponse.2.headers.find? key = c.sentHeader key := by
  obtain ⟨b, hb⟩ : ∃ b, b = c.clampRet.defaultBody := ⟨_, rfl⟩
  have hret : b.httpRet = c.sentRet := by
    rw [hb, defaultBody_eq]
    split <;> rfl
  have hbody : b.body = c.sentBody := by
    rw [hb, defaultBody_eq, sentBody]
    split <;> rfl
  have hheaders : ∀ key, b.headers.find? key
      = if key = ascii "Content-Type" ∧ c.bare then some (ascii "text/html")
        else c.headers.find? key := by
    intro key
    rw [hb, defaultBody_eq]
    by_cases hbare : c.bare
    · rw [if_pos hbare, UnorderedMap.find?_assign]
      simp only [hbare, and_true]
    · rw [if_neg hbare]
      simp only [hbare, and_false, if_false]
  obtain ⟨d, hd⟩ : ∃ d, d = c.standing.foldl (fun c kv => c.setDefault kv.1 kv.2) b := ⟨_, rfl⟩
  have hdspec := fun key => setDefaults_spec key c.standing b
  rw [← hd] at hdspec
  have hdret : d.httpRet = c.sentRet := (hdspec []).2.1.trans hret
  have hwritten : c.beginResponse = (some d.response, d) := by
    have hsteps : d = ((b.setDefault (ascii "Content-Length") (longValue b.body.length)).setDefault
        (ascii "Server") (ascii "SimpleWebSvr/1.0")).setDefault (ascii "Connection")
        (ascii "Keep-Alive") := by
      rw [hbody, longValue_eq hsize, hd]
      rfl
    unfold beginResponse
    dsimp only
    rw [← hb, ← hsteps, hdret, if_pos (sentRet_range c)]
  rw [hwritten]
  refine ⟨rfl, hdret, (hdspec []).2.2.trans hbody, fun key => ?_⟩
  rw [(hdspec key).1, hheaders, sentHeader]
  split
  · rfl
  · rfl

/-- The message that is written. -/
def message (c : HttpConnection) : Message UInt8 :=
  ⟨statusLine c.httpRet, c.headers.entries.mergeSort fun a b => a.1 ≤ b.1, c.body⟩

theorem bytesOut_eq_write (hret : 0 ≤ c.httpRet ∧ c.httpRet < HTTP_END) (ending : Bytes) :
    c.bytesOut ending = http.writeWith ending c.message := by
  have hflat : (c.message.fields.map http.line).flatMap (fun line => line ++ http.eol)
      = c.message.fields.flatMap fun kv => kv.1 ++ KV_SEPARATOR ++ kv.2 ++ CRLF := by
    rw [List.flatMap_map]
    refine List.flatMap_congr fun kv _ => ?_
    simp [Layout.line, http]
  rw [bytesOut, Layout.writeWith, hflat, (statusCodeStr_eq hret).1]
  simp [message, http]

/-- The fields are the headers. -/
theorem mem_fields (c : HttpConnection) (key value : Bytes) :
    (key, value) ∈ c.message.fields ↔ c.headers.find? key = some value := by
  rw [message, List.mem_mergeSort, UnorderedMap.find?_eq_some_iff]

theorem bodyLength_eq (c : HttpConnection) : http.bodyLength c.message.fields
    = (c.headers.find? (ascii "Content-Length")).bind lengthOf := by
  cases hfind : c.message.fields.find? fun f => f.1 = ascii "Content-Length" with
  | none =>
      have hnone : c.headers.find? (ascii "Content-Length") = none := by
        rw [Option.eq_none_iff_forall_ne_some]
        intro value hvalue
        rw [List.find?_eq_none] at hfind
        exact hfind _ ((mem_fields c _ _).mpr hvalue) (by simp)
      simp only [http, hfind, hnone, Option.bind_none]
  | some f =>
      obtain ⟨key, value⟩ := f
      have hkey : key = ascii "Content-Length" := by simpa using List.find?_some hfind
      have hvalue := (mem_fields c key value).mp (List.mem_of_find?_eq_some hfind)
      rw [hkey] at hvalue
      simp only [http, hfind, hvalue, Option.bind_some]

/-- The headers that `begin_response` puts in are clean. -/
theorem clean_standing (c : HttpConnection) {key value : Bytes}
    (h : c.standing.lookup key = some value) : 58 ∉ key ∧ 13 ∉ key ∧ 13 ∉ value := by
  obtain ⟨l₁, l₂, hsplit, -⟩ := List.lookup_eq_some_iff.mp h
  have hmem : (key, value) ∈ c.standing := by simp [hsplit]
  simp only [standing, List.mem_cons, List.not_mem_nil, or_false, Prod.mk.injEq] at hmem
  rcases hmem with ⟨rfl, rfl⟩ | ⟨rfl, rfl⟩ | ⟨rfl, rfl⟩
  · refine ⟨by decide, by decide, fun hmem => ?_⟩
    have hdigit := isDigit_of_mem_decimal _ 13 hmem
    exact absurd hdigit (by decide)
  · decide
  · decide

theorem Clean.sent (h : c.Clean) {key value : Bytes} (hsent : c.sentHeader key = some value) :
    58 ∉ key ∧ 13 ∉ key ∧ 13 ∉ value := by
  rw [sentHeader] at hsent
  split at hsent
  · next hpage =>
      rw [hpage.1, ← Option.some.inj hsent]
      decide
  · cases hfind : c.headers.find? key with
    | some v =>
        rw [hfind, Option.some_or, Option.some.injEq] at hsent
        exact hsent ▸ h key v hfind
    | none =>
        rw [hfind, Option.none_or] at hsent
        exact clean_standing c hsent

/-- Clean headers are lines of their own. -/
theorem wellFormed_message (hret : 0 ≤ c.httpRet ∧ c.httpRet < HTTP_END) (h : c.Clean) :
    http.WellFormed c.message := by
  have hfield : ∀ field ∈ c.message.fields, 58 ∉ field.1 ∧ 13 ∉ field.1 ∧ 13 ∉ field.2 :=
    fun field hfield => h field.1 field.2 ((mem_fields c _ _).mp hfield)
  refine ⟨?_, fun field hmem => ?_, fun field hmem => ⟨?_, ?_⟩⟩
  · exact ends_of_not_mem (statusCodeStr_eq hret).2 _
  · exact ends_of_not_mem (hfield field hmem).1 _
  · simp [Layout.line, http, KV_SEPARATOR, ascii]
  · obtain ⟨-, hkey, hvalue⟩ := hfield field hmem
    have hline : 13 ∉ http.line field := by
      have hsep : 13 ∉ KV_SEPARATOR := by decide
      simp only [Layout.line, http, List.mem_append, hkey, hvalue, hsep, or_self, not_false_iff]
    exact ends_of_not_mem hline _

theorem lengthOf_decimal (n : Nat) : lengthOf (decimal n) = some n := by
  rw [lengthOf, if_pos ⟨decimal_ne_nil n, isDigit_of_mem_decimal n⟩, decimalValue_decimal]

/-- The length that is announced. -/
theorem sentHeader_length (c : HttpConnection) :
    (c.sentHeader (ascii "Content-Length")).bind lengthOf = some c.sentBody.length ↔
      ∀ value, c.headers.find? (ascii "Content-Length") = some value →
        lengthOf value = some c.sentBody.length := by
  have hother : ¬ (ascii "Content-Length" = ascii "Content-Type" ∧ c.bare) := by
    intro h
    exact absurd h.1 (by decide)
  have hstanding : c.standing.lookup (ascii "Content-Length")
      = some (decimal c.sentBody.length) := by simp [standing]
  rw [sentHeader, if_neg hother, hstanding]
  cases hfind : c.headers.find? (ascii "Content-Length") with
  | none => simp [lengthOf_decimal]
  | some value => simp

/-- What is written is a message that says what was meant. What goes out has
`ending` in the place of its empty line. -/
theorem beginResponse_message (hclean : c.Clean) (hsize : c.sentBody.length < 2 ^ 63) :
    ∃ m : Message UInt8, c.beginResponse.1 = some (http.write m) ∧
      (∀ ending, c.beginResponse.2.bytesOut ending = http.writeWith ending m) ∧
      http.WellFormed m ∧ m = ⟨statusLine c.sentRet, m.fields, c.sentBody⟩ ∧
      (m.fields.map Prod.fst).Nodup ∧
      (∀ key value, (key, value) ∈ m.fields ↔ c.sentHeader key = some value) ∧
      http.bodyLength m.fields = (c.sentHeader (ascii "Content-Length")).bind lengthOf := by
  obtain ⟨hwritten, hret, hbody, hheaders⟩ := beginResponse_spec hsize
  generalize c.beginResponse.2 = d at hwritten hret hbody hheaders
  have hdret : 0 ≤ d.httpRet ∧ d.httpRet < HTTP_END := hret ▸ sentRet_range c
  have hdclean : d.Clean := fun key value hvalue => hclean.sent (hheaders key ▸ hvalue)
  refine ⟨d.message, ?_, bytesOut_eq_write hdret, wellFormed_message hdret hdclean, ?_, ?_,
    fun key value => ?_, ?_⟩
  · rw [hwritten, response, bytesOut_eq_write hdret]
    rfl
  · rw [← hret, ← hbody]
    rfl
  · exact ((List.mergeSort_perm _ _).map Prod.fst).nodup_iff.mpr d.headers.nodup
  · rw [mem_fields, hheaders]
  · rw [bodyLength_eq, hheaders]

/-- A response with clean headers says what was meant, each header once. It
is read so, whatever follows it, exactly if the two bytes of `ending` behind
the headers are still `CRLF` when they go out, and the handler leaves the
length alone or sets the right one. -/
theorem response_reads_back_iff (c : HttpConnection) (hclean : c.Clean)
    (hsize : c.sentBody.length < 2 ^ 63) {ending : Bytes} (htwo : ending.length = 2) :
    c.beginResponse.1 = some (c.beginResponse.2.bytesOut CRLF) ∧
    ∃ fields, (fields.map Prod.fst).Nodup ∧
      (∀ key value, (key, value) ∈ fields ↔ c.sentHeader key = some value) ∧
      ((∀ rest, http.read (c.beginResponse.2.bytesOut ending ++ rest)
          = some (⟨statusLine c.sentRet, fields, c.sentBody⟩, rest)) ↔
        ending = CRLF ∧ ∀ value, c.headers.find? (ascii "Content-Length") = some value →
          lengthOf value = some c.sentBody.length) := by
  obtain ⟨m, hwritten, hout, hformed, hm, hnodup, hfields, hlength⟩ :=
    beginResponse_message hclean hsize
  refine ⟨by rw [hwritten, hout]; rfl, m.fields, hnodup, hfields, ?_⟩
  have hbody : c.sentBody.length = m.body.length := by rw [hm]
  rw [← hm, hout, Layout.read_writeWith_iff (by decide) hformed htwo, hlength, ← hbody,
    sentHeader_length]
  rfl

/-- An answer with a type and a text. -/
def greeting : HttpConnection :=
  ((new .kProcessing .HTTP_GET HTTP_200 0).setHeader (ascii "Content-Type") (ascii "text/plain"))
    |>.setBody (ascii "hello")

theorem greeting_reads_back : ∃ written fields, greeting.beginResponse.1 = some written ∧
    (ascii "Content-Length", ascii "5") ∈ fields ∧
    http.read written = some (⟨ascii "HTTP/1.1 200 OK", fields, ascii "hello"⟩, []) := by
  have hclean : greeting.Clean := by
    intro key value hvalue
    have hmem := greeting.headers.find?_eq_some_iff.mp hvalue
    have hentries : greeting.headers.entries
        = [(ascii "Content-Type", ascii "text/plain")] := by decide
    rw [hentries, List.mem_singleton, Prod.mk.injEq] at hmem
    rw [hmem.1, hmem.2]
    decide
  have hnone : greeting.headers.find? (ascii "Content-Length") = none := by decide
  obtain ⟨hwritten, fields, -, hfields, hread⟩ :=
    response_reads_back_iff greeting hclean (by decide) (show CRLF.length = 2 by decide)
  have hlength : greeting.sentHeader (ascii "Content-Length") = some (ascii "5") := by
    decide +kernel
  have hback := hread.mpr ⟨rfl, fun value hvalue => by rw [hnone] at hvalue; cases hvalue⟩ []
  rw [List.append_nil] at hback
  exact ⟨_, fields, hwritten, (hfields _ _).mpr hlength, hback⟩

end

end HttpConnection

end VideoMatch.Browse
