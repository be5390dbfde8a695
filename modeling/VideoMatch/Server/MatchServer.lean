/-
VideoMatch.Server.MatchServer — the HTTP side of the match server.

`myHandler` is the handler that `main` gives to the HTTP library. The
library calls it on the I/O thread first; if it answers
`HTTP_SWITCH_THREAD`, the library calls it again in the thread pool. `serve`
is both calls together, taken as one step.

`GET /exit` ends the process. `matchServer` is the service over many
processes: requests, and at any time the end of a process and the start of
the next one. What the surroundings decide during a request (the orders of
the walks, the measured time, the results of `open` and `write`) is a
`Chance`.
-/
import VideoMatch.Cxx.Strings
import VideoMatch.Machine.Service
import VideoMatch.Server.ProtocolTheorems
import VideoMatch.Server.LifeCycle

namespace VideoMatch.Server

open VideoMatch.Cxx VideoMatch.Machine

/-! ## The handler -/

inductive RequestType where
  | HTTP_GET | HTTP_POST | HTTP_HEAD | HTTP_PUT | HTTP_INVALID
  deriving DecidableEq, Repr

/-- What the handler reads of a request. -/
structure HttpRequest where
  type : RequestType
  path : Bytes
  postdata : Bytes
  inThreadpool : Bool := false

def HttpRequest.get (path : Bytes) : HttpRequest := ⟨.HTTP_GET, path, [], false⟩

/-- What the handler makes of a response. -/
structure HttpResponse where
  headers : UnorderedMap Bytes Bytes := UnorderedMap.empty
  body : Bytes := []

def HttpResponse.setHeader (resp : HttpResponse) (key value : Bytes) : HttpResponse :=
  { resp with headers := resp.headers.assign key value }

/-- How a call of the handler ends: with the process, with
`HTTP_SWITCH_THREAD`, or with `HTTP_200`. -/
inductive HandlerEnd where
  | exits
  | switchThread
  | ok (resp : HttpResponse)

/-- The last lines of the handler. -/
def respond (body : Bytes) : HandlerEnd :=
  .ok (({ body := body } : HttpResponse).setHeader (ascii "Server")
    (ascii "Video Match Server 1.0") |>.setHeader (ascii "Content-Type") (ascii "text/html"))

/-- The lambda `prefixeq`: `base` is longer than `pat` and begins with it,
up to the case of letters. -/
def prefixeq (base pat : Bytes) : Bool :=
  decide (base.length > pat.length) && caseEq (base.take pat.length) pat

def SAVE : Bytes := ascii "/save"
def QUERYKEY : Bytes := ascii "/querykey/"
def QUERYKEYPLAIN : Bytes := ascii "/querykeyplain/"

/-- The text shown for every other path. -/
def helpInfo : Bytes :=
  ascii "Command:\r\n" ++ ascii "GET /exit\r\n" ++ ascii "GET /info\r\n" ++ ascii "GET /save\r\n"
    ++ ascii "GET /querykey/$key\r\n"

/-- What the surroundings decide while a request is handled. -/
structure Chance where
  o : HashOrder
  timeMs : Int
  opens : Bool
  out : Nat → WriteOutcome

/-- The store and the directory of a process. -/
structure MatchServer where
  vdb : VideoDB
  fs : FileSystem DbFile

/-- `my_handler`; `none` is an exception or a fault below it. -/
def myHandler (J : JsonCpp) (er : EqualRange UInt64) (ch : Chance) (s : MatchServer)
    (req : HttpRequest) : Option (HandlerEnd × MatchServer) :=
  match req.type with
  | .HTTP_GET =>
      if req.path = ascii "/info" then some (respond (info J s.vdb), s)
      else if req.path = ascii "/exit" then some (.exits, s)
      else if req.path = SAVE ∨ prefixeq req.path QUERYKEYPLAIN ∨ prefixeq req.path QUERYKEY then
        if req.inThreadpool then
          if req.path = SAVE then
            (VideoDB.save ch.o s.fs s.vdb ch.opens ch.out).map fun (_, fs, vdb) =>
              (respond (ascii "Done\n"), ⟨vdb, fs⟩)
          else if prefixeq req.path QUERYKEY then
            let key := req.path.drop QUERYKEY.length
            (query J er ch.o ch.timeMs s.vdb key false).map fun (body, vdb) =>
              (respond body, { s with vdb := vdb })
          else if prefixeq req.path QUERYKEYPLAIN then
            let key := req.path.drop QUERYKEYPLAIN.length
            (query J er ch.o ch.timeMs s.vdb key true).map fun (body, vdb) =>
              (respond body, { s with vdb := vdb })
          else some (respond [], s)
        else some (.switchThread, s)
      else some (respond helpInfo, s)
  | .HTTP_POST =>
      if req.inThreadpool then
        (process J er ch.o s.vdb req.postdata).map fun (body, vdb) =>
          (respond body, { s with vdb := vdb })
      else some (.switchThread, s)
  | _ => some (respond [], s)

/-- A request from the I/O thread on: the handler is called again in the
thread pool if it asks for that. -/
def serve (J : JsonCpp) (er : EqualRange UInt64) (ch : Chance) (s : MatchServer)
    (req : HttpRequest) : Option (HandlerEnd × MatchServer) := do
  let (result, s) ← myHandler J er ch s { req with inThreadpool := false }
  match result with
  | .switchThread => myHandler J er ch s { req with inThreadpool := true }
  | _ => some (result, s)

/-! ## What a request asks for -/

/-- The work behind a request. -/
inductive Action where
  | info
  | exit
  | save
  | queryKey (key : Bytes) (plain : Bool)
  | post (body : Bytes)
  | showText (text : Bytes)

/-- The action a request leads to. -/
def HttpRequest.action (req : HttpRequest) : Action :=
  match req.type with
  | .HTTP_GET =>
      if req.path = ascii "/info" then .info
      else if req.path = ascii "/exit" then .exit
      else if req.path = SAVE then .save
      else if prefixeq req.path QUERYKEY then .queryKey (req.path.drop QUERYKEY.length) false
      else if prefixeq req.path QUERYKEYPLAIN then
        .queryKey (req.path.drop QUERYKEYPLAIN.length) true
      else .showText helpInfo
  | .HTTP_POST => .post req.postdata
  | _ => .showText []

/-- An action that runs in the thread pool. -/
def Action.pooled : Action → Bool
  | .save | .queryKey .. | .post _ => true
  | _ => false

/-- An action carried out. -/
def Action.perform (J : JsonCpp) (er : EqualRange UInt64) (ch : Chance) (s : MatchServer) :
    Action → Option (HandlerEnd × MatchServer)
  | .info => some (respond (VideoMatch.Server.info J s.vdb), s)
  | .exit => some (.exits, s)
  | .save => (VideoDB.save ch.o s.fs s.vdb ch.opens ch.out).map fun (_, fs, vdb) =>
      (respond (ascii "Done\n"), ⟨vdb, fs⟩)
  | .queryKey key plain => (query J er ch.o ch.timeMs s.vdb key plain).map fun (body, vdb) =>
      (respond body, { s with vdb := vdb })
  | .post body => (process J er ch.o s.vdb body).map fun (body, vdb) =>
      (respond body, { s with vdb := vdb })
  | .showText text => some (respond text, s)

/-! ## From one process to the next -/

/-- The server and whether its process runs. -/
structure Site where
  server : MatchServer
  running : Bool

inductive Happening where
  | request (ch : Chance) (req : HttpRequest)
  | restart (o : HashOrder)

/-- The process after a request that ended so. -/
def HandlerEnd.keepsRunning : HandlerEnd → Bool
  | .exits => false
  | _ => true

/-- A request to a running process, or `main` of the next one; `none` as a
reply stands for its start. -/
def Site.serve (J : JsonCpp) (er : EqualRange UInt64) (site : Site) :
    Happening → Option (Option HandlerEnd × Site)
  | .request ch req =>
      if site.running then
        (VideoMatch.Server.serve J er ch site.server req).map fun (result, s) =>
          (some result, ⟨s, result.keepsRunning⟩)
      else none
  | .restart o =>
      (VideoDB.load o (site.server.fs.contents .db) VideoDB.fresh).map fun (_, vdb) =>
        (none, ⟨{ site.server with vdb := vdb }, true⟩)

def matchServer (J : JsonCpp) (er : EqualRange UInt64) :
    Service Site Happening (Option HandlerEnd) := ⟨Site.serve J er⟩

end VideoMatch.Server
