import Ruka.DecimalNames
import Ruka.OffsetIndex

/-! A segment: a log file of records and its index. `Segment::create` opens the
log in append mode; `Segment::load` opens it for reading and writing, where
reads and writes share one cursor. Additions on `u64` fields are checked. -/
namespace Ruka
open BigEndian LexicalPaths FilePrograms DecimalNames

/-- `format!("{:020}.log", base_offset)`. -/
def logName (baseOffset : Nat) : Name :=
  ⟨padded 20 baseOffset ++ '.' :: ['l', 'o', 'g'], plain_padded 20 baseOffset _ (by decide)⟩

/-- `format!("{:020}.index", base_offset)`. -/
def indexName (baseOffset : Nat) : Name :=
  ⟨padded 20 baseOffset ++ '.' :: ['i', 'n', 'd', 'e', 'x'],
    plain_padded 20 baseOffset _ (by decide)⟩

def logPath (dir : Path) (baseOffset : Nat) : Path := dir ++ [logName baseOffset]

def indexPath (dir : Path) (baseOffset : Nat) : Path := dir ++ [indexName baseOffset]

/-- `segment.rs::Segment`. -/
structure Segment where
  baseOffset : Nat
  logFile : File
  index : Index
  currentSize : Nat
  nextOffset : Nat
  maxBytes : Nat
  syncLevel : SyncLevel
  deriving DecidableEq

namespace Segment

/-- `Segment::create`. An existing log is kept and appended to, yet the sizes
start from nothing. -/
def create (dir : Path) (baseOffset maxBytes : Nat) (syncLevel : SyncLevel) :
    Program (Except RukaError Segment) := do
  match ← createDirAll dir with
  | .error error => pure (.error (.io error))
  | .ok () =>
    match ← File.openWith (logPath dir baseOffset) { create := true, append := true } with
    | .error error => pure (.error (.io error))
    | .ok logFile =>
      match ← Index.create (indexPath dir baseOffset) with
      | .error error => pure (.error error)
      | .ok index => pure (.ok ⟨baseOffset, logFile, index, 0, baseOffset, maxBytes, syncLevel⟩)

/-- The recovery loop of `Segment::load`: it stops at the first bytes that are
not a whole record. Every record takes at least one byte of `src`, so `fuel`
starts at its length. -/
def recover (rebuildIndex : Bool) :
    Nat → Bytes → Nat → Nat → Index → Program (Except RukaError (Nat × Nat × Index))
  | 0, _, currentOffset, validBytes, index => pure (.ok (currentOffset, validBytes, index))
  | fuel + 1, src, currentOffset, validBytes, index => do
    match ← Program.orPanic (Record.decode src) with
    | (.ok (some record), rest) =>
      let recordLen := src.length - rest.length
      match ← (if rebuildIndex then index.append record.offset validBytes
          else pure (.ok (), index)) with
      | (.error error, _) => pure (.error error)
      | (.ok (), index) => do
        let currentOffset ← Program.checked (2 ^ 64) (record.offset + 1)
        recover rebuildIndex fuel rest currentOffset (validBytes + recordLen) index
    | _ => pure (.ok (currentOffset, validBytes, index))

/-- The index of a segment being loaded: a file that cannot be used is
replaced by an empty one. -/
def loadIndex (path : Path) : Program (Except RukaError Index) := do
  match ← Index.load path with
  | .ok index => pure (.ok index)
  | .error _ => Index.create path

/-- `Segment::load`. The index is rebuilt only when it has no entry at all. -/
def load (dir : Path) (baseOffset maxBytes : Nat) (syncLevel : SyncLevel) :
    Program (Except RukaError Segment) := do
  match ← File.openWith (logPath dir baseOffset) {} with
  | .error error => pure (.error (.io error))
  | .ok logFile =>
    match ← loadIndex (indexPath dir baseOffset) with
    | .error error => pure (.error error)
    | .ok index =>
      match ← logFile.len with
      | .error error => pure (.error (.io error))
      | .ok fileLen =>
        match ← (logFile.seekStart 0).readToEnd with
        | (.error error, _) => pure (.error (.io error))
        | (.ok buf, logFile) =>
          let rebuildIndex := index.entryCount = 0 && fileLen > 0
          match ← recover rebuildIndex buf.length buf baseOffset 0 index with
          | .error error => pure (.error error)
          | .ok (currentOffset, validBytes, index) =>
            match ← (if validBytes < fileLen then logFile.setLen validBytes else pure (.ok ())) with
            | .error error => pure (.error (.io error))
            | .ok () =>
              match ← logFile.seekEnd with
              | .error error => pure (.error (.io error))
              | .ok logFile =>
                pure (.ok ⟨baseOffset, logFile, index, validBytes, currentOffset,
                  maxBytes, syncLevel⟩)

/-- One index entry after the other, as far as they go. -/
def appendEntries : Index → List IndexEntry → Program (Except RukaError Unit × Index)
  | index, [] => pure (.ok (), index)
  | index, entry :: rest => do
    match ← index.append entry.offset entry.position with
    | (.error error, index) => pure (.error error, index)
    | (.ok (), index) => appendEntries index rest

/-- `sync_data` on the log at the levels that ask for it. -/
def syncLog (level : SyncLevel) (logFile : File) : Program (Except IoError Unit) :=
  if level = .none then pure (.ok ()) else logFile.syncData

/-- `Index::sync` at the level that asks for it. -/
def syncIndex (level : SyncLevel) (index : Index) : Program (Except RukaError Unit) :=
  if level = .logAndIndex then index.sync else pure (.ok ())

/-- What both append paths do with their encoded bytes: write the log, sync it
if asked to, write the index entries, sync the index if asked to. -/
def store (self : Segment) (data : Bytes) (entries : List IndexEntry) :
    Program (Except RukaError Unit × Segment) := do
  match ← self.logFile.writeAll data with
  | (.error error, logFile) => pure (.error (.io error), { self with logFile := logFile })
  | (.ok (), logFile) =>
    match ← syncLog self.syncLevel logFile with
    | .error error => pure (.error (.io error), { self with logFile := logFile })
    | .ok () =>
      match ← appendEntries self.index entries with
      | (.error error, index) =>
        pure (.error error, { self with logFile := logFile, index := index })
      | (.ok (), index) =>
        match ← syncIndex self.syncLevel index with
        | .error error => pure (.error error, { self with logFile := logFile, index := index })
        | .ok () => pure (.ok (), { self with logFile := logFile, index := index })

/-- `Segment::append`. -/
def append (self : Segment) (key value : Option Bytes) : Program (Except RukaError Nat × Segment) :=
  if recordLen key value > self.maxBytes then pure (.error .messageTooLarge, self)
  else do
    let total ← Program.checked (2 ^ 64) (self.currentSize + recordLen key value)
    if total > self.maxBytes ∧ self.currentSize > 0 then
      pure (.error (.segmentFull self.currentSize self.maxBytes), self)
    else do
      let offset := self.nextOffset
      let timestampMs ← now
      let data := Record.encode ⟨offset, timestampMs % 2 ^ 64, key, value⟩
      match ← self.store data [⟨offset, self.currentSize⟩] with
      | (.error error, self) => pure (.error error, self)
      | (.ok (), self) => do
        let currentSize ← Program.checked (2 ^ 64) (self.currentSize + data.length)
        let nextOffset ← Program.checked (2 ^ 64) (self.nextOffset + 1)
        pure (.ok offset, { self with currentSize := currentSize, nextOffset := nextOffset })

/-- The running values of the loop in `Segment::append_batch`. -/
structure Batch where
  buf : Bytes
  indexEntries : List IndexEntry
  physicalPosition : Nat
  currentOffset : Nat
  appendedCount : Nat

/-- The loop of `Segment::append_batch`: nothing is written before it ends. -/
def fill (self : Segment) (timestampMs : Nat) :
    List Bytes → Batch → Program (Except RukaError Batch)
  | [], batch => pure (.ok batch)
  | payload :: rest, batch =>
    if 28 + payload.length > self.maxBytes then pure (.error .messageTooLarge)
    else do
      let total ← Program.checked (2 ^ 64) (batch.physicalPosition + (28 + payload.length))
      if total > self.maxBytes then
        if batch.appendedCount > 0 then pure (.ok batch)
        else pure (.error (.segmentFull self.currentSize self.maxBytes))
      else do
        let data := Record.encode ⟨batch.currentOffset, timestampMs, none, some payload⟩
        let physicalPosition ← Program.checked (2 ^ 64) (batch.physicalPosition + data.length)
        let currentOffset ← Program.checked (2 ^ 64) (batch.currentOffset + 1)
        fill self timestampMs rest
          { buf := batch.buf ++ data
            indexEntries := batch.indexEntries ++ [⟨batch.currentOffset, batch.physicalPosition⟩]
            physicalPosition := physicalPosition
            currentOffset := currentOffset
            appendedCount := batch.appendedCount + 1 }

/-- `Segment::append_batch`: the offset of the first record and how many of
the payloads this segment took. -/
def appendBatch (self : Segment) (payloads : List Bytes) :
    Program (Except RukaError (Nat × Nat) × Segment) :=
  if payloads = [] then pure (.ok (self.nextOffset, 0), self)
  else do
    let timestampMs ← now
    match ← self.fill (timestampMs % 2 ^ 64) payloads
        ⟨[], [], self.currentSize, self.nextOffset, 0⟩ with
    | .error error => pure (.error error, self)
    | .ok batch =>
      if batch.buf = [] then pure (.ok (self.nextOffset, batch.appendedCount), self)
      else do
        let baseOffset := self.nextOffset
        match ← self.store batch.buf batch.indexEntries with
        | (.error error, self) => pure (.error error, self)
        | (.ok (), self) => do
          let currentSize ← Program.checked (2 ^ 64) (self.currentSize + batch.buf.length)
          pure (.ok (baseOffset, batch.appendedCount),
            { self with currentSize := currentSize, nextOffset := batch.currentOffset })

/-- The second read of a record too long for the first: its length prefix,
then exactly the rest. -/
def readWhole (logFile : File) (position : Nat) :
    Program (Except RukaError (Option Record) × File) := do
  match ← (logFile.seekStart position).readExact 4 with
  | (.error error, logFile) => pure (.error (.io error), logFile)
  | (.ok lenBuf, logFile) =>
    -- `full_buf[0..4]` is out of range for a shorter buffer
    if beNat lenBuf < 4 then .halt .panic
    else do
      match ← logFile.readExact (beNat lenBuf - 4) with
      | (.error error, logFile) => pure (.error (.io error), logFile)
      | (.ok body, logFile) => do
        let (answer, _) ← Program.orPanic (Record.decode (lenBuf ++ body))
        pure (answer, logFile)

/-- `Segment::read_at`. -/
def readAt (self : Segment) (offset : Nat) : Program (Except RukaError (Option Record) × Segment) :=
  if offset < self.baseOffset ∨ offset ≥ self.nextOffset then pure (.ok none, self)
  else match self.index.lookup offset with
    | none => pure (.ok none, self)
    | some position => do
      match ← (self.logFile.seekStart position).read 4096 with
      | (.error error, logFile) => pure (.error (.io error), { self with logFile := logFile })
      | (.ok buf, logFile) => do
        match ← Program.orPanic (Record.decode buf) with
        | (.error error, _) => pure (.error error, { self with logFile := logFile })
        | (.ok found, _) =>
          match found.filter (fun record => record.offset = offset) with
          | some record => pure (.ok (some record), { self with logFile := logFile })
          | none => do
            let (answer, logFile) ← readWhole logFile position
            pure (answer, { self with logFile := logFile })

/-- The decoding loop of `Segment::read_batch`. -/
def collect (offset maxBytes : Nat) : Nat → Bytes → List Record → Nat → Option (List Record)
  | 0, _, records, _ => some records
  | fuel + 1, src, records, totalBytes =>
    if src.length < 4 then some records
    else do
      let (recordLen, _) ← getUint 4 src
      if src.length < recordLen then some records
      else if totalBytes + recordLen > maxBytes ∧ records ≠ [] then some records
      else
        match ← Record.decode src with
        | (.ok (some record), rest) =>
          if record.offset ≥ offset then
            collect offset maxBytes fuel rest (records ++ [record]) (totalBytes + recordLen)
          else collect offset maxBytes fuel rest records totalBytes
        | _ => some records

/-- How much `Segment::read_batch` reads at once: at least one mebibyte. -/
def maxReadSize (maxBytes : Nat) : Nat := if maxBytes < 1024 * 1024 then 1024 * 1024 else maxBytes

/-- `Segment::read_batch`. -/
def readBatch (self : Segment) (offset maxBytes : Nat) :
    Program (Except RukaError (List Record) × Segment) :=
  if offset < self.baseOffset ∨ offset ≥ self.nextOffset then pure (.ok [], self)
  else match self.index.lookup offset with
    | none => pure (.ok [], self)
    | some position => do
      match ← (self.logFile.seekStart position).read (maxReadSize maxBytes) with
      | (.error error, logFile) => pure (.error (.io error), { self with logFile := logFile })
      | (.ok buf, logFile) => do
        let records ← Program.orPanic (collect offset maxBytes buf.length buf [] 0)
        if records = [] ∧ buf.length > 0 then
          match ← readWhole logFile position with
          | (.ok (some record), logFile) =>
            pure (.ok (if record.offset ≥ offset then [record] else []),
              { self with logFile := logFile })
          | (_, logFile) => pure (.ok [], { self with logFile := logFile })
        else pure (.ok records, { self with logFile := logFile })

/-- `Segment::flush`: an unbuffered handle has nothing to flush. -/
def flush (_self : Segment) : Program (Except RukaError Unit) := pure (.ok ())

end Segment

end Ruka
