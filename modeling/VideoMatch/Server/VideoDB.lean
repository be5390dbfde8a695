/-
VideoMatch.Server.VideoDB — the video store and its frame index.

A `VideoDB` holds its videos as heap objects. `db` maps a name to the
address of the object, `table` maps the 20 high bits of a hash (the
shortened key) to a key block, the list of all (hash, address) pairs
with that shortened key. `uniqFrmCnt` caches, in the object, the number
of distinct hashes that were put into the index for it.

The operations follow the source one by one. Each takes a `HashOrder`
for the walks over hash containers it performs and for what `std::sort`
does with equal scores. Results are in `Option`: `none` is a pointer that
refers to no object or an index out of range.

The mutex does not appear here. An operation of this module is one
critical section, or a sequential run of an operation that has several.
-/
import VideoMatch.Cxx.Heap
import VideoMatch.Server.CheckCandidate

namespace VideoMatch.Server

open VideoMatch.Cxx

/-! ## Objects and state -/

def EMPTY_FRAME : UInt64 := 0

/-- `VideoDB::DataItem`. `uniqFrmCnt` is not initialised by a constructor;
`addFramesToIndex` sets it before anything reads it. -/
structure DataItem where
  uniqFrmCnt : Nat := 0
  name : Bytes
  frames : List UInt64 := []
  ref : Int := 0
  deleted : Bool := false
  deriving DecidableEq, Repr

namespace DataItem

/-- `DataItem(name)` followed by one `Push` for each frame. -/
def ofFrames (name : Bytes) (frames : List UInt64) : DataItem :=
  { name := name, frames := frames }

/-- The copy constructor. -/
def copy (dataItem : DataItem) : DataItem :=
  { name := dataItem.name, frames := dataItem.frames }

/-- `operator=`. -/
def assign (this dataItem : DataItem) : DataItem :=
  { this with name := dataItem.name, frames := dataItem.frames, ref := 0, deleted := false }

end DataItem

/-- `inc_ref` of the object at `p`. -/
def incRef (heap : Heap DataItem) (p : Nat) : Option (Heap DataItem) := do
  let _ ← heap.read p
  some (heap.modify p fun di => { di with ref := di.ref + 1 })

/-- `dec_ref` of the object at `p`: a deleted object goes with its last
reference. -/
def decRef (heap : Heap DataItem) (p : Nat) : Option (Heap DataItem) := do
  let di ← heap.read p
  if di.ref - 1 = 0 ∧ di.deleted then
    some (heap.free p)
  else
    some (heap.modify p fun di => { di with ref := di.ref - 1 })

abbrev KeyBlock := List (UInt64 × Nat)

def HSIZE_BITS : Nat := 20

def keyShorten (raw : UInt64) : UInt32 := (raw >>> UInt64.ofNat (64 - HSIZE_BITS)).toUInt32

structure VideoDB where
  heap : Heap DataItem
  db : UnorderedMap Bytes Nat
  table : UnorderedMap UInt32 KeyBlock

/-- The state after the constructor. -/
def VideoDB.fresh : VideoDB := ⟨Heap.empty, UnorderedMap.empty, UnorderedMap.empty⟩

/-- What the library is free to choose in one call. -/
structure HashOrder where
  frames : IterOrder UInt64
  items : IterOrder Nat
  videos : IterOrder (Bytes × Nat)
  ties : IterOrder (Bytes × ℚ)
  deriving Inhabited

namespace VideoDB

/-! ## Adding -/

/-- `kb->push_back(make_pair(k, di))`, after the key block of `k` has been
looked up or created. -/
def pushFrame (table : UnorderedMap UInt32 KeyBlock) (k : UInt64) (di : Nat) :
    UnorderedMap UInt32 KeyBlock :=
  let k2 := keyShorten k
  let table := match table.find? k2 with
    | none => table.insert k2 []
    | some _ => table
  table.update k2 (· ++ [(k, di)])

/-- `add_frames_to_index`. -/
def addFramesToIndex (o : HashOrder) (s : VideoDB) (di : Nat) : Option VideoDB := do
  let item ← s.heap.read di
  let uniqueFrames := unorderedSet (item.frames.filter (· ≠ EMPTY_FRAME))
  some { s with
    heap := s.heap.modify di fun item => { item with uniqFrmCnt := uniqueFrames.length }
    table := (o.frames.order uniqueFrames).foldl (fun t k => pushFrame t k di) s.table }

/-- `Add`: the return code and the new state. -/
def add (o : HashOrder) (s : VideoDB) (dataItem : DataItem) : Option (Int × VideoDB) :=
  match s.db.find? dataItem.name with
  | some _ => some (-1, s)
  | none => do
      let (heap, di) := s.heap.alloc dataItem.copy
      let s ← addFramesToIndex o { s with heap := heap, db := s.db.insert dataItem.name di } di
      some (0, s)

/-! ## Queries -/

/-- `Query(video_name, data_item)`: the return code and the out argument. -/
def queryName (s : VideoDB) (videoName : Bytes) (dataItem : DataItem) :
    Option (Int × DataItem) :=
  match s.db.find? videoName with
  | none => some (-1, dataItem)
  | some di => do
      let item ← s.heap.read di
      some (0, dataItem.assign item)

/-- The videos that `table` lists under the hash `k`. -/
def lookupFrame (s : VideoDB) (k : UInt64) : List Nat :=
  if k = EMPTY_FRAME then []
  else
    match s.table.find? (keyShorten k) with
    | none => []
    | some kb => (kb.filter (fun i => i.1 = k)).map Prod.snd

/-- The videos whose length differs too much from that of a query with `n`
distinct hashes, among the long enough ones. -/
def lengthDiffers (uniqFrmCnt n : Nat) : Prop :=
  uniqFrmCnt > 60 ∧ ((uniqFrmCnt : ℚ) > n * (3 / 2) ∨ (uniqFrmCnt : ℚ) * (3 / 2) < n)

instance (u n : Nat) : Decidable (lengthDiffers u n) :=
  inferInstanceAs (Decidable (u > 60 ∧ ((u : ℚ) > n * (3 / 2) ∨ (u : ℚ) * (3 / 2) < n)))

/-- `get_candidates1`: the candidates, each with a reference taken. -/
def getCandidates1 (o : HashOrder) (s : VideoDB) (frames : List UInt64) :
    Option (List Nat × VideoDB) := do
  let uniqueFrames := unorderedSet frames
  let resultSet := unorderedSet ((o.frames.order uniqueFrames).flatMap s.lookupFrame)
  (o.items.order resultSet).foldlM
    (fun (st : List Nat × VideoDB) i => do
      let item ← st.2.heap.read i
      if lengthDiffers item.uniqFrmCnt uniqueFrames.length then
        some st
      else do
        let heap ← incRef st.2.heap i
        some (st.1 ++ [i], { st.2 with heap := heap }))
    ([], s)

/-- 0.3 * 0.3 -/
def threshold : ℚ := 9 / 100

/-- One candidate of `Query`: its score, and its reference dropped. -/
def checkOne (er : EqualRange UInt64) (frames : List UInt64)
    (st : List (Bytes × ℚ) × VideoDB) (i : Nat) : Option (List (Bytes × ℚ) × VideoDB) := do
  let item ← st.2.heap.read i
  let score ← checkCandidate er item.frames frames
  let result := if score > threshold then st.1 ++ [(item.name, score)] else st.1
  let heap ← decRef st.2.heap i
  some (result, { st.2 with heap := heap })

/-- `std::sort` by descending score; pairs of equal score end up in any
order. -/
def sortResult (o : HashOrder) (result : List (Bytes × ℚ)) : List (Bytes × ℚ) :=
  (o.ties.order result).mergeSort fun p1 p2 => decide (p2.2 ≤ p1.2)

/-- `Query(data_item, result)`: the return value, `result` and the state. -/
def queryFrames (er : EqualRange UInt64) (o : HashOrder) (s : VideoDB) (frames : List UInt64)
    (result : List (Bytes × ℚ)) : Option (Int × List (Bytes × ℚ) × VideoDB) := do
  let (candidates, s) ← getCandidates1 o s frames
  let (result, s) ← candidates.foldlM (checkOne er frames) (result, s)
  let result := sortResult o result
  some (toInt result.length, result, s)

/-! ## Counters -/

def count (s : VideoDB) : Int := toInt s.db.entries.length

/-- `result += i.second->size()` in an `int`. The order of the walk does
not change the sum. -/
def framesCount (s : VideoDB) : Int :=
  s.table.entries.foldl (fun result i => toInt ((result % 2 ^ 32).toNat + i.2.length)) 0

def frameTableSize (s : VideoDB) : Int := toInt s.table.entries.length

/-! ## What is stored -/

/-- The stored objects with their addresses. -/
def items (s : VideoDB) : List (Nat × DataItem) :=
  s.db.entries.filterMap fun e => (s.heap.read e.2).map fun di => (e.2, di)

/-- The content of `db`: the names and their frame lists. -/
def content (s : VideoDB) : List (Bytes × List UInt64) :=
  s.db.entries.filterMap fun e => (s.heap.read e.2).map fun di => (e.1, di.frames)

end VideoDB

end VideoMatch.Server
