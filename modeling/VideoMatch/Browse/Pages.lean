/-
VideoMatch.Browse.Pages — the pages of the browse server.

`loadPath` reads the list of videos, `myHandler` answers a request. The
handler splits the path at the slashes and looks at the pieces: a browse
page shows one frame with links to its neighbours, a browseall page links
the frames 1, 2, … up to their number, and an image is a frame. The small
strings of a page go through buffers of 32 bytes.

What the system answers to a load is a parameter, as it is for `load`.
A result `none` is a fault, such as `params[2]` of two pieces.
-/
import VideoMatch.Browse.HttpConnection
import VideoMatch.Browse.VideoManager
import VideoMatch.Cxx.Format
import VideoMatch.Machine.Transition

namespace VideoMatch.Browse

open VideoMatch.Cxx VideoMatch.Machine HttpConnection

/-! ## The list of videos -/

/-- The scan of a line: the position `s` behind the last slash, and the
position `d` of the last dot. -/
def scanLine (line : Bytes) : Nat × Option Nat :=
  line.zipIdx.foldl (fun sd c =>
    if c.1 = 47 then (c.2 + 1, sd.2)
    else if c.1 = 46 then (sd.1, some c.2)
    else sd) (0, none)

/-- What `LoadPath` does with one string `fn` of `fgets`. It ends the line
at the first newline or NUL. -/
def addPath (rawPath : StdMap Bytes Bytes) (fn : Bytes) : StdMap Bytes Bytes :=
  let line := fn.takeWhile fun c => c ≠ 0 ∧ c ≠ 10
  let s := (scanLine line).1
  match (scanLine line).2 with
  | none => rawPath
  | some d =>
      if line.drop d = ascii ".pickle" then rawPath.assign ((line.drop s).take (d - s)) line
      else rawPath

/-- `LoadPath`, for the content of the file if it can be opened. -/
def VideoManager.loadPath (vm : VideoManager) : Option Bytes → Int × VideoManager
  | none => (-1, vm)
  | some file => (0, { vm with rawPath := (fgetsAll 128 [] file).foldl addPath vm.rawPath })

/-! ## The pages -/

/-- The pieces of the path between the slashes, without the empty ones. -/
def splitPath (path : Bytes) : List Bytes :=
  let (params, laststr) := path.foldl (fun st c =>
    if c = 47 then (if st.2 = [] then st.1 else st.1 ++ [st.2], [])
    else (st.1, st.2 ++ [c])) ([], [])
  if laststr = [] then params else params ++ [laststr]

/-- `prevaddr` and `nextaddr`, for the id they lead to. -/
def browseAddr (key : Bytes) (id : Int) : Bytes :=
  snprintf 32 (ascii "/browse/" ++ cString key ++ ascii "/" ++ decimal id)

def prevId (curid : Int) : Int := if curid = 1 then 1 else intOfLong (curid - 1)

def nextId (curid frmCnt : Int) : Int := if curid = frmCnt then curid else intOfLong (curid + 1)

/-- The body of a browse page. -/
def browseBody (key : Bytes) (curid frmCnt : Int) : Bytes :=
  let curidstr := snprintf 32 (decimal curid)
  let titlestr := snprintf 32 (decimal curid ++ ascii " / " ++ decimal frmCnt)
  let prevaddr := browseAddr key (prevId curid)
  let nextaddr := browseAddr key (nextId curid frmCnt)
  ascii "<html><head><title>" ++ key ++ ascii "</title></head><body><center><h2>" ++ titlestr
    ++ ascii "</h2></center><center><img src=\"/image/" ++ key ++ ascii "/" ++ curidstr
    ++ ascii "\" usemap=\"#img1\"align=\"middle\" width=600></center><map name=\"img1\">"
    ++ ascii "<area shape=\"rect\" coords=\"0,0,300,600\" href=\"" ++ prevaddr
    ++ ascii "\" alt=\"Sun\"><area shape=\"rect\" coords=\"300,0,600,600\" href=\"" ++ nextaddr
    ++ ascii "\" alt=\"Sun\"></map></body></html>"

/-- The image of the frame `i` on a browseall page. -/
def frameItem (key : Bytes) (i : Int) : Bytes :=
  let curidstr := snprintf 32 (decimal i)
  ascii "<center><img src=\"/image/" ++ key ++ ascii "/" ++ curidstr
    ++ ascii "\"align=\"middle\" width=600></center>\n" ++ ascii "<hr noshade size=4 width=600>"

/-- The body of a browseall page, with the images of the frames from 1 to
`frmCnt`. -/
def browseallBody (key : Bytes) (frmCnt : Int) : Bytes :=
  let titlestr := snprintf 32 (ascii "Total " ++ decimal frmCnt ++ ascii " frames")
  ascii "<html><head><title>" ++ key ++ ascii "</title></head>\n<body><center><h2>" ++ titlestr
    ++ ascii "</h2></center>\n"
    ++ ((List.range frmCnt.toNat).flatMap fun i => frameItem key (i + 1 : Nat))
    ++ ascii "</body></html>"

/-! ## The handler -/

/-- The globals of the server. -/
structure Serving where
  gvm : VideoManager
  bytesOutTotal : Nat := 0

/-- The end of `my_handler`: the changes of the connection, and the output
counted. -/
def reply (contentType body : Bytes) (g : Serving) (gvm : VideoManager) :
    Int × List Change × Serving :=
  (HTTP_200,
    [.setHeader (ascii "Content-Type") contentType, .setBody body,
      .setHeader (ascii "Server") (ascii "Video Browse Server 1.0")],
    { gvm := gvm, bytesOutTotal := (g.bytesOutTotal + body.length) % 2 ^ 64 })

/-- `my_handler`. -/
def myHandler (disk : Bytes → LoadOutcome) (g : Serving) (conn : View) :
    Option (Int × List Change × Serving) :=
  match splitPath conn.path with
  | kind :: key :: rest =>
      if kind = ascii "browse" then
        let curid := (rest.head?.map atoi).getD 1
        (g.gvm.lookupSize key (disk key)).map fun r =>
          if r.1 < 0 then (HTTP_404, [], { g with gvm := r.2 })
          else reply (ascii "text/html") (browseBody key curid r.1) g r.2
      else if kind = ascii "browseall" then
        (g.gvm.lookupSize key (disk key)).map fun r =>
          if r.1 < 0 then (HTTP_404, [], { g with gvm := r.2 })
          else reply (ascii "text/html") (browseallBody key r.1) g r.2
      else if kind = ascii "image" then
        rest.head?.bind fun id =>
          (g.gvm.lookup key (atoi id) [] (disk key)).map fun r =>
            if r.1 < 0 then (HTTP_404, [], { g with gvm := r.2.2 })
            else reply (ascii "image/jpeg") r.2.1 g r.2.2
      else some (HTTP_404, [], g)
  | _ => some (HTTP_404, [], g)

/-- The manager that `main` sets up from the list file. -/
def startVm (cacheSize : Nat) (listfile : Bytes) : VideoManager :=
  (({ cacheSize := cacheSize } : VideoManager).loadPath (some listfile)).2

/-- A request, with what the disk answers while it is handled. -/
structure BrowseRequest where
  disk : Bytes → LoadOutcome
  conn : View

/-- The server that `main` starts: it handles one request after the other. -/
def browseServer (cacheSize : Nat) (listfile : Bytes) : System Serving BrowseRequest :=
  ⟨fun g => g = { gvm := startVm cacheSize listfile },
    fun g r => (myHandler r.disk g r.conn).map fun answer => answer.2.2⟩

end VideoMatch.Browse
