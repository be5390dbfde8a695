/-
VideoMatch.Browse.HttpConnection — one connection of the HTTP server.

A connection collects the bytes of a request until the parser is content,
calls the handler, and writes the response. The socket is left out: the
bytes that a read puts into `buffer_` are an argument, what is written is a
result, and the calls that wait for the next read or write are the places
where these functions return.

The handler sees a connection through its public members only. It is a
function of what it can read (`View`) and of whatever else it depends on,
and its answer lists the members it called to change the connection.
-/
import VideoMatch.Cxx.Containers
import VideoMatch.Cxx.Search
import VideoMatch.Cxx.Strings

namespace VideoMatch.Browse

open VideoMatch.Cxx

/-! ## Constants -/

inductive RequestType where
  | HTTP_GET | HTTP_POST | HTTP_HEAD | HTTP_INVALID
  deriving DecidableEq, Repr

inductive State where
  | kReadingHeader | kReadingPost | kProcessing | kWriteHeader | kWriteBody
  deriving DecidableEq, Repr

def HTTP_SWITCH_THREAD : Int := -100
def HTTP_200 : Int := 0
def HTTP_404 : Int := 1
def HTTP_503 : Int := 2
def HTTP_508 : Int := 3
def HTTP_END : Int := 5

/-- `STATUS_CODE_STR`, which has an entry for each code below `HTTP_END`. -/
def statusCodeStr : List Bytes :=
  [ascii "HTTP/1.1 200 OK\r\n", ascii "HTTP/1.1 404 Not Found\r\n",
    ascii "HTTP/1.1 503 Service Unavailable\r\n",
    ascii "HTTP/1.1 508 Bad Handler ( Recurive threaded switch)\r\n",
    ascii "HTTP/1.1 501 Not Implemented\r\n"]

def CRLF : Bytes := ascii "\r\n"

def KV_SEPARATOR : Bytes := ascii ": "

/-! ## The connection -/

structure HttpConnection where
  state : State
  type : RequestType
  httpRet : Int
  threaded : Bool := false
  headers : StdMap Bytes Bytes := UnorderedMap.empty
  path : Bytes := []
  post : Bytes := []
  postsize : Nat
  body : Bytes := []
  request : Bytes := []
  header : Bytes := []

namespace HttpConnection

/-- The constructor, which leaves these four members as they are. -/
def new (state : State) (type : RequestType) (httpRet : Int) (postsize : Nat) : HttpConnection :=
  { state := state, type := type, httpRet := httpRet, postsize := postsize }

/-- `start`, up to the read. -/
def start (c : HttpConnection) : HttpConnection := { c with state := .kReadingHeader }

def setHeader (c : HttpConnection) (key value : Bytes) : HttpConnection :=
  { c with headers := c.headers.assign key value }

/-- The value that `set_header` makes of a `long`, printed into 24 bytes. -/
def longValue (value : Int) : Bytes := (ascii (toString value)).take 23

def setBody (c : HttpConnection) (body : Bytes) : HttpConnection := { c with body := body }

/-! ## Parsing -/

/-- The length of the body. The second argument of `substr` is a length, so
`atoi` reads on behind the line. -/
def parseLength (c : HttpConnection) : Int × HttpConnection :=
  match find c.request (ascii "Content-Length: ") 0 with
  | none => (-1, c)
  | some spos2 =>
      let spos2 := spos2 + 16
      match find c.request CRLF spos2 with
      | none => (-1, c)
      | some spos3 =>
          if spos3 - spos2 > 16 then (-1, c)
          else
            let postsize := (atoi ((c.request.drop spos2).take spos3) % 2 ^ 32).toNat
            let c := { c with postsize := postsize }
            if c.post.length < c.postsize then (1, c) else (0, c)

/-- The request line, whose path starts at `spos2`, and what follows. -/
def parsePath (c : HttpConnection) (spos2 : Nat) : Int × HttpConnection :=
  match find c.request (ascii " HTTP/1.") spos2 with
  | none => (-1, c)
  | some spos3 =>
      let c := { c with path := (c.request.drop spos2).take (spos3 - spos2) }
      if c.state = .kReadingPost then c.parseLength else (0, c)

/-- `try_parse_request` for the bytes of one read: 0 if the request is
complete, 1 if more has to be read, -1 if it is refused. -/
def tryParseRequest (c : HttpConnection) (buffer : Bytes) : Int × HttpConnection :=
  if c.state = .kReadingHeader then
    let c := { c with request := c.request ++ buffer }
    match find c.request (ascii "\r\n\r\n") 0 with
    | some spos =>
        if c.request.take 4 = ascii "GET " then
          { c with type := .HTTP_GET }.parsePath 4
        else if c.request.take 5 = ascii "POST " then
          { c with
            type := .HTTP_POST
            state := .kReadingPost
            post := c.request.drop (spos + 4) }.parsePath 5
        else (-1, c)
    | none => if c.request.length > 4096 then (-1, c) else (1, c)
  else if c.state = .kReadingPost then
    let c := { c with post := c.post ++ buffer }
    if c.post.length ≥ c.postsize then (0, c) else (1, c)
  else (-1, c)

/-- What `handle_read` goes on with. -/
inductive Reading where
  | parsed (c : HttpConnection)
  | more (c : HttpConnection)
  | closed

/-- `handle_read`, once the bytes have been parsed. -/
def goOn : Int × HttpConnection → Reading
  | (ret, c) =>
      if ret = 0 then .parsed { c with state := .kProcessing }
      else if ret > 0 then .more c
      else .closed

/-- `handle_read`; a read that fails brings no bytes. -/
def handleRead (c : HttpConnection) : Option Bytes → Reading
  | none => .closed
  | some buffer => goOn (c.tryParseRequest buffer)

/-! ## Handling -/

/-- What a handler can read. -/
structure View where
  reqType : RequestType
  path : Bytes
  postData : Bytes
  inThreadpool : Bool
  deriving DecidableEq

def view (c : HttpConnection) : View := ⟨c.type, c.path, c.post, c.threaded⟩

/-- A member function by which a handler changes the connection. -/
inductive Change where
  | setHeader (key value : Bytes)
  | setBody (body : Bytes)

def apply (c : HttpConnection) : Change → HttpConnection
  | .setHeader key value => c.setHeader key value
  | .setBody body => c.setBody body

/-- `RequestHandler`: the return value, the changes in order, and what the
call made of the state `G` outside the connection. -/
def RequestHandler (G : Type*) := G → View → Int × List Change × G

/-- The bytes that go out. A `std::map` is walked in the order of its keys.
The buffer for the empty line behind the headers refers to a temporary copy
of `CRLF`, which is gone when the buffers are read; `ending` is what is in
its place by then. -/
def bytesOut (ending : Bytes) (c : HttpConnection) : Bytes :=
  let headers := c.headers.entries.mergeSort fun a b => a.1 ≤ b.1
  statusCodeStr.getD c.httpRet.toNat [] ++
    (headers.flatMap fun kv => kv.1 ++ KV_SEPARATOR ++ kv.2 ++ CRLF) ++ ending ++ c.body

/-- The bytes that are handed over for writing: `CRLF` is still there. -/
def response (c : HttpConnection) : Bytes := c.bytesOut CRLF

/-- A return value that is no status code becomes 503. -/
def clampRet (c : HttpConnection) : HttpConnection :=
  if c.httpRet < 0 ∨ c.httpRet ≥ HTTP_END then { c with httpRet := HTTP_503 } else c

/-- An error without a body shows its status line. -/
def defaultBody (c : HttpConnection) : HttpConnection :=
  if c.httpRet ≠ HTTP_200 ∧ c.body = [] then
    (c.setBody (ascii "<html><body><h1>" ++ statusCodeStr.getD c.httpRet.toNat []
      ++ ascii "</h1></body></html>")).setHeader (ascii "Content-Type") (ascii "text/html")
  else c

/-- `if (headers_.count(key) == 0) set_header(key, value)`. -/
def setDefault (c : HttpConnection) (key value : Bytes) : HttpConnection :=
  if c.headers.find? key = none then c.setHeader key value else c

/-- `begin_response`: the bytes handed to `async_write`, or nothing if the
socket is closed. -/
def beginResponse (c : HttpConnection) : Option Bytes × HttpConnection :=
  let c := c.clampRet.defaultBody
  let c := c.setDefault (ascii "Content-Length") (longValue c.body.length)
  let c := c.setDefault (ascii "Server") (ascii "SimpleWebSvr/1.0")
  let c := c.setDefault (ascii "Connection") (ascii "Keep-Alive")
  if c.httpRet ≥ 0 ∧ c.httpRet < HTTP_END then (some c.response, c) else (none, c)

/-- What `process_request` does with a request. -/
inductive Decision where
  | respond (written : Option Bytes)
  | pushToThreadpool
  | badHandler (written : Option Bytes)
  deriving DecidableEq

/-- `process_request`. -/
def processRequest {G : Type*} (reqHandler : RequestHandler G) (g : G) (c : HttpConnection) :
    Decision × HttpConnection × G :=
  let (httpRet, changes, g) := reqHandler g c.view
  let c := { changes.foldl apply c with httpRet := httpRet }
  if c.httpRet = HTTP_SWITCH_THREAD then
    if c.threaded then
      let written := ({ c with httpRet := HTTP_508 }.setBody []).beginResponse
      (.badHandler written.1, written.2, g)
    else
      (.pushToThreadpool, { c with threaded := true }, g)
  else
    let written := c.beginResponse
    (.respond written.1, written.2, g)

/-- `handle_write`. -/
def handleWrite (c : HttpConnection) : HttpConnection :=
  { c with
    header := []
    request := []
    body := []
    post := []
    path := []
    headers := UnorderedMap.empty
    postsize := 0 }.start

end HttpConnection

end VideoMatch.Browse
