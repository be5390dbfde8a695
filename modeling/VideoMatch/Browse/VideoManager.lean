/-
VideoMatch.Browse.VideoManager — the cache of decoded videos.

A `VideoManager` keeps the frames of recently used videos. Each cached
video is a heap object; `data` maps its key to its address, and the
objects form a doubly linked list from `head`, the most recently used one,
to `tail`. `load` decodes a video into a directory, reads its `.jpg` files
into a new object, links the object in at the front and removes objects
from the back until the total size fits.

What the system answers to one `load` is a parameter, `LoadOutcome`. A
result `none` is a fault: a pointer that refers to no object, `end()`
dereferenced, an exception of `new`, or a loop that does not end within
its fuel. The sizes are natural numbers. In the source they are 64-bit
values, but a total of 2^64 would have to be in memory.
-/
import VideoMatch.Cxx.Containers
import VideoMatch.Cxx.LinkedList
import VideoMatch.Cxx.Strings

namespace VideoMatch.Browse

open VideoMatch.Cxx

/-! ## Objects and state -/

/-- `VideoManager::DataItem`. The constructor leaves the pointers open;
`linkFront` sets them. -/
structure DataItem where
  name : Bytes
  frames : StdMap Int Bytes := UnorderedMap.empty
  size : Nat := 0
  prev : Option Nat := none
  next : Option Nat := none

structure VideoManager where
  cacheSize : Nat
  heap : Heap DataItem := Heap.empty
  head : Option Nat := none
  tail : Option Nat := none
  data : StdMap Bytes Nat := UnorderedMap.empty
  rawPath : StdMap Bytes Bytes := UnorderedMap.empty

/-- A file in the directory of decoded frames: its name, and its content if
it can be opened. -/
structure DirEntry where
  dName : Bytes
  file : Option Bytes

/-- A directory listing, whose length `scandir` returns as an `int`. -/
abbrev Listing := { l : List DirEntry // l.length < 2 ^ 31 }

/-- What the system does during one `load`: the success of `mkdir`, and the
listing if `scandir` does not fail. -/
structure LoadOutcome where
  mkdir : Bool
  scandir : Option Listing

namespace VideoManager

/-! ## Eviction -/

/-- `get_size`. -/
def getSize (vm : VideoManager) : Option Nat :=
  vm.data.entries.foldlM (fun ret i => (vm.heap.read i.2).map fun di => ret + di.size) 0

/-- The body of the eviction loop, for `di = tail_`. -/
def evict (vm : VideoManager) (di : Nat) : Option VideoManager := do
  let head := if vm.head = vm.tail then none else vm.head
  let item ← vm.heap.read di
  let tail := item.prev
  let heap ← vm.heap.storeIf tail fun x => { x with next := none }
  let item ← heap.read di
  some { vm with heap := heap.free di, head := head, tail := tail, data := vm.data.erase item.name }

/-- `check_cache_overflow`, with a bound on the number of iterations. -/
def checkCacheOverflow : Nat → VideoManager → Option VideoManager
  | 0, _ => none
  | fuel + 1, vm => do
      let size ← vm.getSize
      match vm.tail with
      | none => some vm
      | some di =>
          if size > vm.cacheSize then (vm.evict di).bind (checkCacheOverflow fuel) else some vm

/-! ## Loading -/

/-- `strcasecmp` of the last four bytes with ".jpg". The bytes in front of
a name in a `dirent` are never a dot, so shorter names do not pass. -/
def isJpg (dName : Bytes) : Bool :=
  4 ≤ dName.length && caseEq (dName.drop (dName.length - 4)) (ascii ".jpg")

/-- One file of the listing. An `fsize` below 0 makes `new` throw. -/
def readFile (st : StdMap Int Bytes × Nat) (e : DirEntry) : Option (StdMap Int Bytes × Nat) :=
  if isJpg e.dName then
    match e.file with
    | none => some st
    | some content =>
        let fsize := toInt content.length
        if fsize < 0 then none
        else if fsize = 0 then some st
        else some (st.1.assign (atoi e.dName) (content.take fsize.toNat), st.2 + fsize.toNat)
  else some st

/-- The frames of a listing and the sum of the file sizes. -/
def readFiles (l : Listing) : Option (StdMap Int Bytes × Nat) :=
  l.1.foldlM readFile (UnorderedMap.empty, 0)

/-- The new object `di` becomes the head of the list and is entered into
`data` under `key`. -/
def linkFront (vm : VideoManager) (key : Bytes) (frames : StdMap Int Bytes) (size : Nat) :
    Option VideoManager := do
  let (heap, di) := vm.heap.alloc
    { name := key, frames := frames, size := size, prev := none, next := vm.head }
  let tail := vm.tail.or (some di)
  let heap ← heap.storeIf vm.head fun x => { x with prev := some di }
  some { vm with heap := heap, head := some di, tail := tail, data := vm.data.assign key di }

/-- The part of `load` that reads the directory and links the item in. A
failed `scandir` leaves `filelist` open, and it is freed. -/
def insertVideo (vm : VideoManager) (key : Bytes) (out : LoadOutcome) : Option VideoManager := do
  let listing ← out.scandir
  let (frames, size) ← readFiles listing
  vm.linkFront key frames size

/-- `load`. -/
def load (vm : VideoManager) (key : Bytes) (out : LoadOutcome) : Option (Int × VideoManager) :=
  match vm.rawPath.find? key with
  | none => some (-1, vm)
  | some _ =>
    if out.mkdir then do
      let vm ← vm.insertVideo key out
      let vm ← checkCacheOverflow (vm.data.entries.length + 1) vm
      some (0, vm)
    else
      some (-1, vm)

/-! ## Lookup -/

/-- `Move To Front`. -/
def moveToFront (vm : VideoManager) (di : Nat) : Option VideoManager := do
  if some di = vm.head then
    some vm
  else
    let item ← vm.heap.read di
    let tail := if some di = vm.tail then item.prev else vm.tail
    let heap ← vm.heap.storeIf item.next fun x => { x with prev := item.prev }
    let heap ← heap.storeIf item.prev fun x => { x with next := item.next }
    let heap ← heap.store di fun x => { x with prev := none, next := vm.head }
    let head ← vm.head
    let heap ← heap.store head fun x => { x with prev := some di }
    some { vm with heap := heap, head := some di, tail := tail.or (some di) }

/-- The common start of the two lookups: `find`, `load` and `find` again.
The result is the address of the item, or nothing if `load` failed. -/
def findOrLoad (vm : VideoManager) (vname : Bytes) (out : LoadOutcome) :
    Option (Option Nat × VideoManager) :=
  match vm.data.find? vname with
  | some di => some (some di, vm)
  | none => do
      let (r, vm) ← vm.load vname out
      if r < 0 then some (none, vm)
      else do
        let di ← vm.data.find? vname
        some (some di, vm)

/-- `LookupSize`. -/
def lookupSize (vm : VideoManager) (vname : Bytes) (out : LoadOutcome) :
    Option (Int × VideoManager) := do
  let (found, vm) ← vm.findOrLoad vname out
  match found with
  | none => some (-1, vm)
  | some di => do
      let item ← vm.heap.read di
      some (toInt item.frames.entries.length, vm)

/-- `Lookup`: the return value, `content` and the cache. -/
def lookup (vm : VideoManager) (vname : Bytes) (frameid : Int) (content : Bytes)
    (out : LoadOutcome) : Option (Int × Bytes × VideoManager) := do
  let (found, vm) ← vm.findOrLoad vname out
  match found with
  | none => some (-1, content, vm)
  | some di => do
      let vm ← vm.moveToFront di
      let item ← vm.heap.read di
      match item.frames.find? frameid with
      | none => some (-1, content, vm)
      | some frame => some (0, frame, vm)

end VideoManager

end VideoMatch.Browse
