/-
VideoMatch.Server.Storage — `VideoDB::Save` and `VideoDB::Load`.

`Save` walks over `db` and collects the records in a block of 8192 bytes,
handed to `write` whenever a boundary check finds too little room. It
writes to a temporary file, which it opens without truncation, then
renames that file over the database file and removes the log. The result
of a `write` is only logged.

`Load` maps the database file and walks over it with a pointer. The frame
index is not stored: `Load` counts the hashes of each shortened key,
creates the key blocks and indexes every video again.

A store that leaves the block, a read that leaves the file and an `int`
that overflows have no result (`none`).
-/
import VideoMatch.Machine.BlockWriter
import VideoMatch.Server.VideoDB

namespace VideoMatch.Server

open VideoMatch.Cxx VideoMatch.Machine

def FILE_SIG : Bytes := ascii "VideoDBFileV1"

/-- The files of a database directory: `tmp_videomatch_db.bin`,
`videomatch_db.bin` and `videomatch_log.bin`. -/
inductive DbFile where
  | tmp
  | db
  | log
  deriving DecidableEq, Repr

namespace VideoDB

/-! ## Save -/

/-- The size of `block`. -/
def BS : Nat := 8192

/-- The file header. The terminator that `strcpy` adds to the signature is
overwritten by the next store. -/
def saveHeader (s : VideoDB) (w : BlockWriter BS) : Option (BlockWriter BS) := do
  let w ← w.put FILE_SIG
  let w ← w.put (intBytes (toInt s.db.entries.length))
  w.put (intBytes (toInt 0))

/-- One frame of a video. -/
def saveFrame (w : BlockWriter BS) (f : UInt64) : Option (BlockWriter BS) :=
  (w.checkFlush (toInt 8)).put (u64Bytes f)

/-- One item of `db`: the name with its length and terminator, the frames
with their number. -/
def saveItem (st : BlockWriter BS × VideoDB) (d : Bytes × Nat) :
    Option (BlockWriter BS × VideoDB) := do
  let (w, s) := st
  let heap ← incRef s.heap d.2
  let item ← heap.read d.2
  let w := w.checkFlush (toInt (4 + d.1.length + 1 + 4))
  let w ← w.put (intBytes (toInt d.1.length))
  let w ← w.put d.1
  let w ← w.put [0]
  let w ← w.put (intBytes (toInt item.frames.length))
  let w ← item.frames.foldlM saveFrame w
  let heap ← decRef heap d.2
  some (w, { s with heap := heap })

/-- The blocks `Save` hands to `write`, in order. -/
def saveBlocks (o : HashOrder) (s : VideoDB) : Option (List Bytes × VideoDB) := do
  let w ← saveHeader s (BlockWriter.start BS)
  let (w, s) ← (o.videos.order s.db.entries).foldlM saveItem (w, s)
  let w := w.checkFlush (BS + 1)
  some (w.writes, s)

/-- `Save`: the return code, the directory and the store. `opens` is the
success of `open`, `out i` that of the `i`-th `write`. -/
def save (o : HashOrder) (fs : FileSystem DbFile) (s : VideoDB) (opens : Bool)
    (out : Nat → WriteOutcome) : Option (Int × FileSystem DbFile × VideoDB) :=
  if opens then do
    let (fs, fd) := fs.openCreate .tmp
    let (blocks, s) ← saveBlocks o s
    let (fs, _) := fs.writeAll fd out blocks
    let fs := fs.rename .tmp .db
    /- write succeed, clear log -/
    let fs := fs.unlink .log
    some (0, fs, s)
  else
    some (-1, fs, s)

/-! ## Load -/

/-- The number of hashes read so far for each shortened key. -/
abbrev SlotCount := UInt32 → Nat

/-- `hslot_cnt[k]++` in an `int`. -/
def countSlot (hslotCnt : SlotCount) (k : UInt32) : Option SlotCount :=
  if hslotCnt k + 1 < 2 ^ 31 then some (Function.update hslotCnt k (hslotCnt k + 1)) else none

/-- The state of the walk over the records. -/
structure Loading where
  s : Int
  hslotCnt : SlotCount
  vdb : VideoDB

/-- One frame hash, pushed to `frames`. -/
def loadFrame (file : Bytes) (st : Int × SlotCount × List UInt64) :
    Option (Int × SlotCount × List UInt64) := do
  let (s, hslotCnt, frames) := st
  let hash ← u64At file s
  let hslotCnt ← countSlot hslotCnt (keyShorten hash)
  some (s + 8, hslotCnt, frames ++ [hash])

/-- One record: the name is read up to its terminator and skipped by its
length. -/
def loadRecord (file : Bytes) (st : Loading) : Option Loading := do
  let vnlen ← intAt file st.s
  let vn ← cstrAt file (st.s + 4)
  let skip ← intSucc vnlen
  let s := st.s + 4 + skip
  let fc ← intAt file s
  let (s, hslotCnt, frames) ← times (loadFrame file) fc.toNat (s + 4, st.hslotCnt, [])
  let (heap, di) := st.vdb.heap.alloc (DataItem.ofFrames vn frames)
  some ⟨s, hslotCnt, { st.vdb with heap := heap, db := st.vdb.db.insert vn di }⟩

/-- The loop that creates the key blocks in advance. -/
def reserveBlocks (hslotCnt : SlotCount) (table : UnorderedMap UInt32 KeyBlock) :
    UnorderedMap UInt32 KeyBlock :=
  (List.range (2 ^ HSIZE_BITS)).foldl
    (fun table i =>
      if hslotCnt (UInt32.ofNat i) ≠ 0 then table.insert (UInt32.ofNat i) [] else table)
    table

/-- One pair of a stored key block. It is read and dropped. -/
def skipPair (file : Bytes) (s : Int) : Option Int := do
  let _ ← u64At file s
  let vnlen ← intAt file (s + 8)
  let _ ← cstrAt file (s + 8 + 4)
  let skip ← intSucc vnlen
  some (s + 8 + 4 + skip)

/-- One stored key block. -/
def skipBlock (file : Bytes) (s : Int) : Option Int := do
  let kbSize ← intAt file (s + 4)
  times (skipPair file) kbSize.toNat (s + 4 + 4)

/-- `Load` from a mapped file. -/
def loadFile (o : HashOrder) (file : Bytes) (vdb : VideoDB) : Option (Int × VideoDB) := do
  let sig ← bytesAt file 0 FILE_SIG.length
  let s : Int := if sig = FILE_SIG then FILE_SIG.length else 0
  let dbSize ← intAt file s
  let kbNum ← intAt file (s + 4)
  let st ← times (loadRecord file) dbSize.toNat ⟨s + 4 + 4, fun _ => 0, vdb⟩
  let vdb := { st.vdb with table := reserveBlocks st.hslotCnt st.vdb.table }
  let vdb ← (o.videos.order vdb.db.entries).foldlM (fun vdb i => addFramesToIndex o vdb i.2) vdb
  let _ ← times (skipBlock file) kbNum.toNat st.s
  some (0, vdb)

/-- `Load`: without a database file the store stays as it is. The log is
mapped and unmapped again, nothing is read from it. -/
def load (o : HashOrder) (file : Option Bytes) (vdb : VideoDB) : Option (Int × VideoDB) :=
  match file with
  | none => some (0, vdb)
  | some file => loadFile o file vdb

end VideoDB

end VideoMatch.Server
