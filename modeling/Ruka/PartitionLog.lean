import Mathlib.Data.List.Sort
import Ruka.SegmentFiles

/-! A partition: its segments in the order of their base offsets, the last one
active. A method that borrows the partition mutably returns it along with its
answer, also when the answer is an error. -/
namespace Ruka
open BigEndian LexicalPaths FilePrograms DecimalNames SortedSearch

/-- `partition.rs::Partition`. -/
structure Partition where
  topic : String
  id : UInt32
  baseDir : Path
  segments : List Segment
  maxSegmentBytes : Nat
  syncLevel : SyncLevel
  deriving DecidableEq

/-- `base_dir.join(&topic).join(id.to_string())`. -/
def partitionDir (baseDir : Path) (topic : String) (id : UInt32) : Path :=
  join (join baseDir topic.toList) (decimal id.toNat)

/-- The base offset a directory entry stands for, if it is a segment's log. -/
def segmentBase (name : Name) : Option Nat :=
  match splitExtension name.val with
  | (stem, some extension) => if extension = ['l', 'o', 'g'] then parseUint (2 ^ 64) stem else none
  | (_, none) => none

namespace Partition

/-- The scan of `Partition::open_or_create` over the entries of the directory.
The segment is loaded under its canonical name, whatever the entry was called. -/
def loadSegments (dir : Path) (maxSegmentBytes : Nat) (syncLevel : SyncLevel) :
    List Name → Program (Except RukaError (List Segment))
  | [] => pure (.ok [])
  | entry :: rest =>
    match segmentBase entry with
    | none => loadSegments dir maxSegmentBytes syncLevel rest
    | some baseOffset => do
      match ← Segment.load dir baseOffset maxSegmentBytes syncLevel with
      | .error error => pure (.error error)
      | .ok segment =>
        match ← loadSegments dir maxSegmentBytes syncLevel rest with
        | .error error => pure (.error error)
        | .ok segments => pure (.ok (segment :: segments))

/-- `Partition::open_or_create`; `readDir` lists a directory in the order the
enumeration gives its entries. -/
def openOrCreate (readDir : Path → List Name) (topic : String) (id : UInt32) (baseDir : Path)
    (maxSegmentBytes : Nat) (syncLevel : SyncLevel) : Program (Except RukaError Partition) := do
  let dir := partitionDir baseDir topic id
  match ← createDirAll dir with
  | .error error => pure (.error (.io error))
  | .ok () =>
    match ← loadSegments dir maxSegmentBytes syncLevel (readDir dir) with
    | .error error => pure (.error error)
    | .ok loaded =>
      let segments := loaded.insertionSort (fun a b => a.baseOffset ≤ b.baseOffset)
      if segments = [] then do
        match ← Segment.create dir 0 maxSegmentBytes syncLevel with
        | .error error => pure (.error error)
        | .ok segment => pure (.ok ⟨topic, id, dir, [segment], maxSegmentBytes, syncLevel⟩)
      else pure (.ok ⟨topic, id, dir, segments, maxSegmentBytes, syncLevel⟩)

/-- Writes the active segment back. -/
def setActive (self : Partition) (active : Segment) : Partition :=
  { self with segments := self.segments.dropLast ++ [active] }

/-- Flushes the active segment and opens the next one where it ends. -/
def rotate (self : Partition) (active : Segment) : Program (Except RukaError Unit × Partition) := do
  match ← active.flush with
  | .error error => pure (.error error, self)
  | .ok () =>
    match ← Segment.create self.baseDir active.nextOffset self.maxSegmentBytes self.syncLevel with
    | .error error => pure (.error error, self)
    | .ok segment => pure (.ok (), { self with segments := self.segments ++ [segment] })

/-- Runs an operation on the active segment; without any segment the source
indexes at `len - 1` and panics. -/
def onActive (self : Partition) (operation : Segment → Program (α × Segment)) :
    Program (α × Segment × Partition) :=
  match self.segments.getLast? with
  | none => .halt .panic
  | some active => do
    let (answer, active) ← operation active
    pure (answer, active, self.setActive active)

/-- `Partition::append`. -/
def append (self : Partition) (key value : Option Bytes) :
    Program (Except RukaError Nat × Partition) := do
  match ← self.onActive (·.append key value) with
  | (.ok offset, _, self) => pure (.ok offset, self)
  | (.error (.segmentFull ..), active, self) =>
    match ← self.rotate active with
    | (.error error, self) => pure (.error error, self)
    | (.ok (), self) => do
      let (answer, _, self) ← self.onActive (·.append key value)
      pure (answer, self)
  | (.error error, _, self) => pure (.error error, self)

/-- `Partition::next_offset`. -/
def nextOffset (self : Partition) : Nat := (self.segments.getLast?.map Segment.nextOffset).getD 0

/-- The loop of `Partition::append_batch`. -/
def appendPayloads : Nat → Partition → List Bytes → Option Nat →
    Program (Except RukaError Nat × Partition)
  | 0, _, _, _ => .halt .unfinished
  | fuel + 1, self, payloads, baseOffset =>
    if payloads = [] then pure (.ok (baseOffset.getD self.nextOffset), self)
    else do
      match ← self.onActive (·.appendBatch payloads) with
      | (.ok (offset, count), active, self) =>
        let baseOffset := some (baseOffset.getD offset)
        let payloads := payloads.drop count
        if payloads = [] then appendPayloads fuel self payloads baseOffset
        else
          match ← self.rotate active with
          | (.error error, self) => pure (.error error, self)
          | (.ok (), self) => appendPayloads fuel self payloads baseOffset
      | (.error (.segmentFull ..), active, self) =>
        match ← self.rotate active with
        | (.error error, self) => pure (.error error, self)
        | (.ok (), self) => appendPayloads fuel self payloads baseOffset
      | (.error error, _, self) => pure (.error error, self)

/-- `Partition::append_batch`. Every payload costs at most a rotation and a
write, so the loop ends within this many rounds. -/
def appendBatch (self : Partition) (payloads : List Bytes) :
    Program (Except RukaError Nat × Partition) :=
  appendPayloads (2 * payloads.length + 1) self payloads none

/-- The segment both read paths start from; none when `offset` is before the
oldest one. -/
def locate (self : Partition) (offset : Nat) : Option Nat :=
  floorByKey self.segments Segment.baseOffset offset

/-- `Partition::read`. -/
def read (self : Partition) (offset : Nat) :
    Program (Except RukaError (Option Record) × Partition) :=
  match self.locate offset with
  | none => pure (.ok none, self)
  | some position =>
    match self.segments[position]? with
    | none => .halt .panic
    | some segment => do
      let (answer, segment) ← segment.readAt offset
      pure (answer, { self with segments := self.segments.set position segment })

/-- What the record loop of `Partition::read_batch` does to the budget and the
results: a return from the function, or on to the next segment. -/
inductive Taken where
  | full (results : List Record)
  | more (bytesBudget : Nat) (results : List Record)

/-- The record loop of `Partition::read_batch`. Lengths are cut to `u32` and
added there; the offset it also computes is replaced before it is read. -/
def takeRecords : List Record → Nat → List Record → Program Taken
  | [], bytesBudget, results => pure (.more bytesBudget results)
  | record :: rest, bytesBudget, results => do
    let recLen ← Program.checked (2 ^ 32)
      (28 + fieldLen record.key % 2 ^ 32 + fieldLen record.value % 2 ^ 32)
    if recLen ≤ bytesBudget then do
      let _ ← Program.checked (2 ^ 64) (record.offset + 1)
      takeRecords rest (bytesBudget - recLen) (results ++ [record])
    else if results = [] then pure (.full [record])
    else pure (.full results)

/-- The base offset of the next segment, where there is one. -/
def nextBase (rest : List Segment) (offset : Nat) : Nat :=
  (rest.head?.map Segment.baseOffset).getD offset

/-- The segment loop of `Partition::read_batch`, over the segments from
`segment_idx` on. -/
def readFrom : List Segment → Nat → Nat → List Record →
    Program (Except RukaError (List Record) × List Segment)
  | [], _, _, results => pure (.ok results, [])
  | segment :: rest, offset, bytesBudget, results =>
    if bytesBudget = 0 then pure (.ok results, segment :: rest)
    else do
      match ← segment.readBatch offset bytesBudget with
      | (.error error, segment) => pure (.error error, segment :: rest)
      | (.ok [], segment) => do
        let (answer, rest) ← readFrom rest (nextBase rest offset) bytesBudget results
        pure (answer, segment :: rest)
      | (.ok records, segment) => do
        match ← takeRecords records bytesBudget results with
        | .full results => pure (.ok results, segment :: rest)
        | .more bytesBudget results => do
          let (answer, rest) ← readFrom rest (nextBase rest offset) bytesBudget results
          pure (answer, segment :: rest)

/-- `Partition::read_batch`. -/
def readBatch (self : Partition) (offset maxBytes : Nat) :
    Program (Except RukaError (List Record) × Partition) :=
  match self.locate offset with
  | none => pure (.ok [], self)
  | some position => do
    let (answer, segments) ← readFrom (self.segments.drop position) offset maxBytes []
    pure (answer, { self with segments := self.segments.take position ++ segments })

end Partition

end Ruka
