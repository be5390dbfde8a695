/-
VideoMatch.Client.Main — the client program.

The client hashes the pictures of a directory and posts one request with
the hashes. What the file system shows is a parameter: the names in a
directory, in the order of `alphasort`, and the hash of a file, if it can
be read. `InitUrl` and the transfer are the library's.

A result `none` is a fault: if `scandir` fails, the uninitialised
`filelist` is freed.
-/
import VideoMatch.Client.Requester
import VideoMatch.Cxx.Format
import VideoMatch.Cxx.Strings

namespace VideoMatch.Client

open VideoMatch.Cxx

/-- The arguments of the options. -/
structure Options where
  req : Option Bytes
  url : Option Bytes
  name : Option Bytes
  dir : Option Bytes

/-- What the client sees of the file system. -/
structure Pictures where
  scandir : Bytes → Option (List Bytes)
  getHashCode : Bytes → Option UInt64

/-- `main` prints the usage and returns 1, or it has posted these bodies and
returns 0. -/
inductive ClientRun where
  | usage
  | posted (bodies : List Bytes)

/-- `strcmp` of the last four bytes with ".jpg". The bytes in front of a
name in a `dirent` are the type and a length, so shorter names do not pass. -/
def hasJpgSuffix (dName : Bytes) : Bool :=
  4 ≤ dName.length && dName.drop (dName.length - 4) = ascii ".jpg"

/-- `frames` after the loop over `filelist`. -/
def hashFrames (pictures : Pictures) (dir : Bytes) (filelist : List Bytes) : List UInt64 :=
  filelist.foldl (fun frames dName =>
    if hasJpgSuffix dName then
      let filename := snprintf 128 (dir ++ ascii "/" ++ dName)
      match pictures.getHashCode filename with
      | none => frames
      | some hresult => frames ++ [hresult]
    else frames) []

/-- The body that `curl` posts for a value: `req_str.c_str()`. -/
def postfields (J : JsonCpp) (v : Json) : Bytes := (J.write v).takeWhile (· ≠ 0)

/-- The end of `main`. The two tests are made one after the other. -/
def requests (J : JsonCpp) (req name : Bytes) (frames : List UInt64) : Option (List Bytes) := do
  let adds ← if caseEq req (ascii "add") then
      (addRequest name frames).map fun v => [postfields J v]
    else some []
  let queries ← if caseEq req (ascii "query") then
      (queryRequest frames).map fun v => [postfields J v]
    else some []
  some (adds ++ queries)

/-- `main`, after the options have been read. A missing name is only looked
at for an add. -/
def clientMain (J : JsonCpp) (pictures : Pictures) (opts : Options) : Option ClientRun :=
  match opts.req, opts.url, opts.dir with
  | some req, some _, some dir =>
      if caseEq req (ascii "add") ∧ opts.name = none then some .usage
      else do
        let filelist ← pictures.scandir dir
        let frames := hashFrames pictures dir filelist
        let bodies ← requests J req (opts.name.getD []) frames
        some (.posted bodies)
  | _, _, _ => some .usage

end VideoMatch.Client
