import Ruka.SegmentFiles

/-! What the append paths of a segment leave on disk. A tile is a segment as
its messages determine it: the log is the encoding of the messages numbered
from the base offset, the index is the list of their positions, the counters
are the lengths of both. -/
namespace Ruka
open BigEndian LexicalPaths FilePrograms DecimalNames

/-- A record apart from its offset, which its place in the log gives it. -/
structure Message where
  timestampMs : UInt64
  key : Option Bytes
  value : Option Bytes
  deriving DecidableEq

def Message.record (message : Message) (offset : Nat) : Record :=
  ⟨offset, message.timestampMs.toNat, message.key, message.value⟩

/-- What a client handed in. -/
def Message.content (message : Message) : Option Bytes × Option Bytes :=
  (message.key, message.value)

def Message.size (message : Message) : Nat := recordLen message.key message.value

def numbered : Nat → List Message → List Record
  | _, [] => []
  | offset, message :: rest => message.record offset :: numbered (offset + 1) rest

/-- The index entries of records that start at `position`. -/
def positions : Nat → List Record → List IndexEntry
  | _, [] => []
  | position, record :: rest =>
    ⟨record.offset, position⟩ :: positions (position + record.encode.length) rest

@[simp] theorem length_numbered (offset : Nat) (messages : List Message) :
    (numbered offset messages).length = messages.length := by
  induction messages generalizing offset with
  | nil => rfl
  | cons message rest ih => simp [numbered, ih]

theorem numbered_append (offset : Nat) (first second : List Message) :
    numbered offset (first ++ second) =
      numbered offset first ++ numbered (offset + first.length) second := by
  induction first generalizing offset with
  | nil => rfl
  | cons message rest ih =>
    simp only [List.cons_append, numbered, ih, List.length_cons]
    congr 3
    omega

theorem numbered_getElem? (offset : Nat) (messages : List Message) (place : Nat) :
    (numbered offset messages)[place]? = messages[place]?.map (·.record (offset + place)) := by
  induction messages generalizing offset place with
  | nil => rfl
  | cons message rest ih =>
    cases place with
    | zero => rfl
    | succ place =>
      have shift : offset + 1 + place = offset + (place + 1) := by omega
      simp only [numbered, List.getElem?_cons_succ, ih, shift]

theorem numbered_offset_bounds (member : record ∈ numbered offset messages) :
    offset ≤ record.offset ∧ record.offset < offset + messages.length := by
  obtain ⟨place, held⟩ := List.mem_iff_getElem?.mp member
  rw [numbered_getElem?] at held
  obtain ⟨message, found, rfl⟩ := Option.map_eq_some_iff.mp held
  have inside := (List.getElem?_eq_some_iff.mp found).1
  exact ⟨Nat.le_add_right _ _, Nat.add_lt_add_left inside _⟩

@[simp] theorem length_positions (position : Nat) (records : List Record) :
    (positions position records).length = records.length := by
  induction records generalizing position with
  | nil => rfl
  | cons record rest ih => simp [positions, ih]

theorem positions_append (position : Nat) (first second : List Record) :
    positions position (first ++ second) =
      positions position first ++ positions (position + (encodeAll first).length) second := by
  induction first generalizing position with
  | nil => rfl
  | cons record rest ih =>
    simp only [List.cons_append, positions, ih, encodeAll_cons, List.length_append]
    congr 3
    omega

/-- Positions are within the bytes of the records. -/
theorem positions_bounds (member : entry ∈ positions position records) :
    (∃ record ∈ records, entry.offset = record.offset) ∧
      entry.position < position + (encodeAll records).length := by
  induction records generalizing position with
  | nil => cases member
  | cons record rest ih =>
    have atLeast := recordLen_ge record.key record.value
    simp only [positions, List.mem_cons] at member
    rcases member with rfl | member
    · refine ⟨⟨record, by simp, rfl⟩, ?_⟩
      simp only [encodeAll_cons, List.length_append, Record.length_encode]
      omega
    · obtain ⟨⟨other, found, same⟩, inside⟩ := ih member
      refine ⟨⟨other, by simp [found], same⟩, ?_⟩
      simp only [encodeAll_cons, List.length_append] at inside ⊢
      omega

/-- A segment by its contents, and how its log file was opened and last moved. -/
structure Tile where
  baseOffset : Nat
  messages : List Message
  appendMode : Bool
  cursor : Nat
  deriving DecidableEq

namespace Tile
variable {world : World} {dir : Path} {tile : Tile} {maxBytes : Nat} {syncLevel : SyncLevel}

def records (tile : Tile) : List Record := numbered tile.baseOffset tile.messages

/-- The log file. -/
def bytes (tile : Tile) : Bytes := encodeAll tile.records

/-- The index. -/
def entries (tile : Tile) : List IndexEntry := positions 0 tile.records

def nextOffset (tile : Tile) : Nat := tile.baseOffset + tile.messages.length

def segment (dir : Path) (maxBytes : Nat) (syncLevel : SyncLevel) (tile : Tile) : Segment where
  baseOffset := tile.baseOffset
  logFile := ⟨logPath dir tile.baseOffset, tile.appendMode, tile.cursor⟩
  index := Index.holding (indexPath dir tile.baseOffset) tile.entries
  currentSize := tile.bytes.length
  nextOffset := tile.nextOffset
  maxBytes := maxBytes
  syncLevel := syncLevel

structure OnDisk (world : World) (dir : Path) (tile : Tile) : Prop where
  log : world.file? (logPath dir tile.baseOffset) = some tile.bytes
  index : world.file? (indexPath dir tile.baseOffset) = some (encodeEntries tile.entries)

private theorem OnDisk.tick (disk : OnDisk world dir tile) : OnDisk world.tick dir tile :=
  ⟨disk.log, disk.index⟩

/-- The size limit, and that the counters fit their width. -/
structure Bounded (maxBytes : Nat) (tile : Tile) : Prop where
  size : tile.bytes.length ≤ maxBytes
  width : tile.bytes.length < 2 ^ 64
  offsets : tile.nextOffset < 2 ^ 64

/-- The next write to the log lands behind everything in it. -/
def AtEnd (tile : Tile) : Prop := tile.appendMode = true ∨ tile.cursor = tile.bytes.length

/-- Both files written out. -/
def lay (world : World) (dir : Path) (tile : Tile) : World :=
  (world.put (logPath dir tile.baseOffset) tile.bytes).put (indexPath dir tile.baseOffset)
    (encodeEntries tile.entries)

/-- A segment just created. -/
def fresh (baseOffset : Nat) : Tile := ⟨baseOffset, [], true, 0⟩

/-- More messages, with the cursor where their write leaves it. -/
def extend (tile : Tile) (more : List Message) : Tile :=
  { tile with
    messages := tile.messages ++ more
    cursor := tile.bytes.length + (encodeAll (numbered tile.nextOffset more)).length }

theorem bytes_extend (tile : Tile) (more : List Message) :
    (tile.extend more).bytes = tile.bytes ++ encodeAll (numbered tile.nextOffset more) := by
  simp only [bytes, records, extend, numbered_append, encodeAll_append, nextOffset]

theorem entries_extend (tile : Tile) (more : List Message) :
    (tile.extend more).entries =
      tile.entries ++ positions tile.bytes.length (numbered tile.nextOffset more) := by
  simp only [entries, records, extend, numbered_append, positions_append, nextOffset, bytes,
    Nat.zero_add]

theorem nextOffset_extend (tile : Tile) (more : List Message) :
    (tile.extend more).nextOffset = tile.nextOffset + more.length := by
  simp only [nextOffset, extend, List.length_append]
  omega

theorem atEnd_extend (tile : Tile) (more : List Message) : (tile.extend more).AtEnd := by
  right
  rw [bytes_extend, List.length_append]
  rfl

theorem bytes_eq_nil (empty : tile.messages = []) : tile.bytes = [] := by
  simp [bytes, records, empty, numbered]

theorem bytes_length_pos (held : tile.messages ≠ []) : 0 < tile.bytes.length := by
  apply encodeAll_length_pos
  intro empty
  have length := length_numbered tile.baseOffset tile.messages
  rw [show numbered tile.baseOffset tile.messages = [] from empty] at length
  exact held (List.length_eq_zero_iff.mp length.symm)

end Tile

/-! ## Paths of the two files -/

theorem logName_injective (same : logName a = logName b) : a = b := by
  have chars := congrArg Subtype.val same
  exact padded_injective (List.append_cancel_right chars)

theorem indexName_injective (same : indexName a = indexName b) : a = b := by
  have chars := congrArg Subtype.val same
  exact padded_injective (List.append_cancel_right chars)

theorem logName_ne_indexName (a b : Nat) : logName a ≠ indexName b := by
  intro same
  have chars := congrArg (fun name : Name => name.val.getLast?) same
  simp [logName, indexName] at chars

theorem logPath_ne_indexPath (dir : Path) (a b : Nat) : logPath dir a ≠ indexPath dir b := by
  intro same
  exact logName_ne_indexName a b (by simpa [logPath, indexPath] using same)

theorem logPath_ne_nil (dir : Path) (a : Nat) : logPath dir a ≠ [] := by simp [logPath]

theorem indexPath_ne_nil (dir : Path) (a : Nat) : indexPath dir a ≠ [] := by simp [indexPath]

namespace Segment
variable {world : World} {dir : Path} {tile : Tile} {maxBytes : Nat} {syncLevel : SyncLevel}
  {path : Path} {old : List IndexEntry}

theorem run_appendEntries (held : world.file? path = some (encodeEntries old))
    (more : List IndexEntry) : (appendEntries (Index.holding path old) more).run world =
      (.ok (.ok (), Index.holding path (old ++ more)),
        world.put path (encodeEntries (old ++ more))) := by
  induction more generalizing old world with
  | nil => simp [appendEntries, World.put_held held]
  | cons entry rest ih =>
    rw [appendEntries, Program.run_bind_of_run (Index.run_append held entry.offset entry.position)]
    simp only
    rw [ih (World.file?_put _ _ _)]
    simp

theorem run_syncLog (level : SyncLevel) (logFile : File) (world : World) :
    (syncLog level logFile).run world = (.ok (.ok ()), world) := by
  unfold syncLog
  split <;> rfl

theorem run_syncIndex (level : SyncLevel) (index : Index) (world : World) :
    (syncIndex level index).run world = (.ok (.ok ()), world) := by
  unfold syncIndex
  split <;> rfl

/-- The write path of both append methods, up to the counters. -/
theorem run_store (maxBytes : Nat) (syncLevel : SyncLevel) (disk : tile.OnDisk world dir)
    (atEnd : tile.AtEnd) (more : List Message) :
    ((tile.segment dir maxBytes syncLevel).store (encodeAll (numbered tile.nextOffset more))
        (positions tile.bytes.length (numbered tile.nextOffset more))).run world =
      (.ok (.ok (), { (tile.extend more).segment dir maxBytes syncLevel with
          currentSize := tile.bytes.length, nextOffset := tile.nextOffset }),
        (tile.extend more).lay world dir) := by
  have indexHeld : (world.put (logPath dir tile.baseOffset) (tile.extend more).bytes).file?
      (indexPath dir tile.baseOffset) = some (encodeEntries tile.entries) := by
    rw [World.file?_put_ne _ _ (Ne.symm (logPath_ne_indexPath dir _ _)), disk.index]
  have written : ((tile.segment dir maxBytes syncLevel).logFile.writeAll
      (encodeAll (numbered tile.nextOffset more))).run world =
      (.ok (.ok (), ((tile.extend more).segment dir maxBytes syncLevel).logFile),
        world.put (logPath dir tile.baseOffset) (tile.extend more).bytes) := by
    have behind : (tile.segment dir maxBytes syncLevel).logFile.AtEnd tile.bytes := atEnd
    rw [Tile.bytes_extend]
    exact File.run_writeAll disk.log rfl behind _
  unfold store
  rw [Program.run_bind_of_run written]
  simp only [Tile.segment]
  rw [Program.run_bind_of_run (run_syncLog _ _ _)]
  simp only
  rw [Program.run_bind_of_run (run_appendEntries indexHeld _)]
  simp only
  rw [Program.run_bind_of_run (run_syncIndex _ _ _), ← Tile.entries_extend]
  rfl

/-- How `Segment::append` can end. -/
inductive AppendEnds (world : World) (dir : Path) (maxBytes : Nat) (syncLevel : SyncLevel)
    (tile : Tile) (key value : Option Bytes) : Except RukaError Nat × Segment → World → Prop
  | tooLarge (large : maxBytes < recordLen key value) :
      AppendEnds world dir maxBytes syncLevel tile key value
        (.error .messageTooLarge, tile.segment dir maxBytes syncLevel) world
  | full (fits : recordLen key value ≤ maxBytes) (held : tile.messages ≠ []) :
      AppendEnds world dir maxBytes syncLevel tile key value
        (.error (.segmentFull tile.bytes.length maxBytes),
          tile.segment dir maxBytes syncLevel) world
  | stored (stamp : UInt64) (bounded : (tile.extend [⟨stamp, key, value⟩]).Bounded maxBytes) :
      AppendEnds world dir maxBytes syncLevel tile key value
        (.ok tile.nextOffset, (tile.extend [⟨stamp, key, value⟩]).segment dir maxBytes syncLevel)
        ((tile.extend [⟨stamp, key, value⟩]).lay world.tick dir)

/-- A counter of the segment leaves its width within `count` appends. -/
def Overflows (maxBytes : Nat) (nextOffset count : Nat) : Prop :=
  2 ^ 63 ≤ maxBytes ∨ 2 ^ 64 ≤ nextOffset + count

theorem length_bytes_extend_one (tile : Tile) (stamp : UInt64) (key value : Option Bytes) :
    (tile.extend [⟨stamp, key, value⟩]).bytes.length = tile.bytes.length + recordLen key value := by
  simp [Tile.bytes_extend, numbered, Message.record]

/-- The checks of `Segment::append` let a record in that fits behind the others. -/
theorem enters_of_room (fits : recordLen key value ≤ maxBytes)
    (room : ¬ (tile.bytes.length + recordLen key value > maxBytes ∧ tile.bytes.length > 0)) :
    tile.bytes.length + recordLen key value ≤ maxBytes := by
  have nonnegative : tile.bytes.length = 0 ∨ 0 < tile.bytes.length := Nat.eq_zero_or_pos _
  omega

/-- A record for which the checks of `Segment::append` found room. -/
theorem bounded_extend_one (stamp : UInt64) (fits : recordLen key value ≤ maxBytes)
    (width : tile.bytes.length + recordLen key value < 2 ^ 64)
    (room : ¬ (tile.bytes.length + recordLen key value > maxBytes ∧ tile.bytes.length > 0))
    (offsets : tile.nextOffset + 1 < 2 ^ 64) :
    (tile.extend [⟨stamp, key, value⟩]).Bounded maxBytes := by
  have grown := length_bytes_extend_one tile stamp key value
  have next : (tile.extend [⟨stamp, key, value⟩]).nextOffset = tile.nextOffset + 1 :=
    Tile.nextOffset_extend tile _
  have enters := enters_of_room fits room
  exact ⟨by omega, by omega, by omega⟩

/-- The three ends of `Segment::append`, with the record that was stored. -/
theorem append_outcome (disk : tile.OnDisk world dir) (bounded : tile.Bounded maxBytes)
    (key value : Option Bytes)
    (atEnd : tile.bytes.length + recordLen key value ≤ maxBytes → tile.AtEnd) :
    ((tile.segment dir maxBytes syncLevel).append key value).Ensures world
      (Overflows maxBytes tile.nextOffset 1) fun reply after =>
        (maxBytes < recordLen key value ∧
          reply = (.error .messageTooLarge, tile.segment dir maxBytes syncLevel) ∧ after = world) ∨
        (recordLen key value ≤ maxBytes ∧ maxBytes < tile.bytes.length + recordLen key value ∧
          tile.messages ≠ [] ∧
            reply = (.error (.segmentFull tile.bytes.length maxBytes),
              tile.segment dir maxBytes syncLevel) ∧
          after = world) ∨
        ((tile.extend [⟨world.stamp, key, value⟩]).Bounded maxBytes ∧
          reply = (.ok tile.nextOffset,
            (tile.extend [⟨world.stamp, key, value⟩]).segment dir maxBytes syncLevel) ∧
          after = (tile.extend [⟨world.stamp, key, value⟩]).lay world.tick dir) := by
  have size := bounded.size
  unfold append
  split
  · rename_i large
    exact Program.ensures_of_run rfl (.inl ⟨large, rfl, rfl⟩)
  rename_i small
  have fits : recordLen key value ≤ maxBytes := Nat.le_of_not_lt small
  refine Program.ensures_bind_checked (fun past => ?_) fun width => ?_
  · left
    simp only [Tile.segment] at past
    omega
  simp only [Tile.segment] at width
  split
  · rename_i overfull
    have held : tile.messages ≠ [] := by
      intro empty
      simp [Tile.segment, Tile.bytes_eq_nil empty] at overfull
    exact Program.ensures_of_run rfl (.inr (.inl ⟨fits, overfull.1, held, rfl, rfl⟩))
  · rename_i room
    simp only [Tile.segment] at room
    have stored := run_store maxBytes syncLevel disk.tick (atEnd (enters_of_room fits room))
      [⟨world.stamp, key, value⟩]
    have grown := length_bytes_extend_one tile world.stamp key value
    have next : (tile.extend [⟨world.stamp, key, value⟩]).nextOffset = tile.nextOffset + 1 :=
      Tile.nextOffset_extend tile _
    simp only [numbered, positions, encodeAll_cons, encodeAll_nil, List.append_nil, Message.record,
      world.toNat_stamp] at stored
    refine Program.ensures_bind_of_run (run_now world) (Program.ensures_bind_of_run stored ?_)
    refine Program.ensures_bind_checked (fun past => ?_) fun _ => ?_
    · left
      simp only [Tile.segment, Record.length_encode] at past
      omega
    refine Program.ensures_bind_checked Or.inr fun offsets => ?_
    simp only [Tile.segment, Record.length_encode] at room offsets ⊢
    refine Program.ensures_of_run rfl
      (.inr (.inr ⟨bounded_extend_one _ fits width room offsets, ?_, rfl⟩))
    rw [grown, next]

theorem append_ensures (disk : tile.OnDisk world dir) (bounded : tile.Bounded maxBytes)
    (key value : Option Bytes)
    (atEnd : tile.bytes.length + recordLen key value ≤ maxBytes → tile.AtEnd) :
    ((tile.segment dir maxBytes syncLevel).append key value).Ensures world
      (Overflows maxBytes tile.nextOffset 1)
        (AppendEnds world dir maxBytes syncLevel tile key value) := by
  refine (append_outcome disk bounded key value atEnd).mono (fun overflow => overflow) ?_
  rintro _ _ (⟨large, rfl, rfl⟩ | ⟨fits, -, held, rfl, rfl⟩ | ⟨bounded, rfl, rfl⟩)
  · exact .tooLarge large
  · exact .full fits held
  · exact .stored world.stamp bounded

/-- The messages a batch of payloads becomes. -/
def stamped (stamp : UInt64) (payloads : List Bytes) : List Message :=
  payloads.map fun payload => ⟨stamp, none, some payload⟩

@[simp] theorem length_stamped (stamp : UInt64) (payloads : List Bytes) :
    (stamped stamp payloads).length = payloads.length := by
  simp [stamped]

theorem stamped_content (stamp : UInt64) (payloads : List Bytes) :
    (stamped stamp payloads).map Message.content = payloads.map fun payload =>
      (none, some payload) := by
  simp [stamped, Message.content]

/-- The running values once the loop has taken these payloads. -/
def Batch.holding (tile : Tile) (stamp : UInt64) (taken : List Bytes) : Batch where
  buf := encodeAll (numbered tile.nextOffset (stamped stamp taken))
  indexEntries := positions tile.bytes.length (numbered tile.nextOffset (stamped stamp taken))
  physicalPosition := (tile.extend (stamped stamp taken)).bytes.length
  currentOffset := (tile.extend (stamped stamp taken)).nextOffset
  appendedCount := taken.length

private theorem Batch.holding_snoc (tile : Tile) (stamp : UInt64) (taken : List Bytes)
    (payload : Bytes) : Batch.holding tile stamp (taken ++ [payload]) =
      { buf := (Batch.holding tile stamp taken).buf ++
          Record.encode ⟨(Batch.holding tile stamp taken).currentOffset, stamp.toNat,
            none, some payload⟩
        indexEntries := (Batch.holding tile stamp taken).indexEntries ++
          [⟨(Batch.holding tile stamp taken).currentOffset,
            (Batch.holding tile stamp taken).physicalPosition⟩]
        physicalPosition := (Batch.holding tile stamp taken).physicalPosition +
          (Record.encode ⟨(Batch.holding tile stamp taken).currentOffset, stamp.toNat, none,
            some payload⟩).length
        currentOffset := (Batch.holding tile stamp taken).currentOffset + 1
        appendedCount := (Batch.holding tile stamp taken).appendedCount + 1 } := by
  simp [holding, stamped, Tile.bytes_extend, Tile.nextOffset_extend, numbered_append,
    positions_append, numbered, positions, Message.record]
  omega

/-- The payloads at the front whose records fit a segment behind `size` bytes. -/
def leading (maxBytes : Nat) : Nat → List Bytes → List Bytes
  | _, [] => []
  | size, payload :: rest =>
    if size + (28 + payload.length) ≤ maxBytes then
      payload :: leading maxBytes (size + (28 + payload.length)) rest
    else []

theorem take_length_leading (maxBytes size : Nat) (payloads : List Bytes) :
    payloads.take (leading maxBytes size payloads).length = leading maxBytes size payloads := by
  induction payloads generalizing size with
  | nil => rfl
  | cons payload rest ih =>
    unfold leading
    split
    · rw [List.length_cons, List.take_succ_cons, ih]
    · rfl

/-- The bytes the records of these payloads take. -/
def recordsLen (payloads : List Bytes) : Nat :=
  (payloads.map fun payload => 28 + payload.length).sum

@[simp] theorem recordsLen_cons (payload : Bytes) (rest : List Bytes) :
    recordsLen (payload :: rest) = 28 + payload.length + recordsLen rest := by
  simp [recordsLen]

/-- The log bytes of a batch. -/
theorem length_encodeAll_stamped (stamp : UInt64) (offset : Nat) (payloads : List Bytes) :
    (encodeAll (numbered offset (stamped stamp payloads))).length = recordsLen payloads := by
  induction payloads generalizing offset with
  | nil => rfl
  | cons payload rest ih =>
    have later := ih (offset + 1)
    simp only [stamped] at later
    simp only [stamped, List.map_cons, numbered, encodeAll_cons, List.length_append,
      Record.length_encode, later, Message.record, recordLen, fieldLen, Option.map_none,
      Option.map_some, Option.getD_none, Option.getD_some, recordsLen_cons]

theorem recordsLen_leading_le (maxBytes size : Nat) (payloads : List Bytes) :
    recordsLen (leading maxBytes size payloads) ≤ recordsLen payloads := by
  induction payloads generalizing size with
  | nil => exact Nat.le_refl _
  | cons payload rest ih =>
    unfold leading
    split
    · rw [recordsLen_cons, recordsLen_cons]
      exact Nat.add_le_add_left (ih _) _
    · exact Nat.zero_le _

theorem recordsLen_leading {maxBytes size : Nat} (fits : size ≤ maxBytes) (payloads : List Bytes) :
    size + recordsLen (leading maxBytes size payloads) ≤ maxBytes := by
  induction payloads generalizing size with
  | nil => simpa [leading, recordsLen] using fits
  | cons payload rest ih =>
    unfold leading
    split
    · rename_i room
      have tail := ih room
      rw [recordsLen_cons]
      omega
    · simpa [recordsLen] using fits

/-- Payloads that fit together in front of one that is too large. -/
theorem leading_of_fits {maxBytes size : Nat} (before rest : List Bytes) {payload : Bytes}
    (large : maxBytes < 28 + payload.length) (fits : size + recordsLen before ≤ maxBytes) :
    leading maxBytes size (before ++ payload :: rest) = before := by
  induction before generalizing size with
  | nil => exact if_neg (by omega)
  | cons first before ih =>
    rw [recordsLen_cons] at fits
    have room : size + (28 + first.length) ≤ maxBytes := by omega
    rw [List.cons_append, leading, if_pos room, ih (by omega)]

/-- A batch's write stops only at a payload for which there is no room left. -/
theorem crowded_of_leading {maxBytes size : Nat}
    (most : leading maxBytes size (taken ++ payload :: rest) = taken) :
    maxBytes < size + recordsLen taken + (28 + payload.length) := by
  induction taken generalizing size with
  | nil =>
    have crowded : ¬ size + (28 + payload.length) ≤ maxBytes := by
      intro room
      rw [List.nil_append, leading, if_pos room] at most
      cases most
    simp only [recordsLen, List.map_nil, List.sum_nil]
    omega
  | cons first taken ih =>
    rw [List.cons_append, leading] at most
    split at most
    · have later := ih (List.cons.inj most).2
      rw [recordsLen_cons]
      omega
    · cases most

/-- How the loop of `Segment::append_batch` can end after it took `taken`. It
looks no further than the first payload that does not fit. -/
inductive FillEnds (maxBytes : Nat) (tile : Tile) (stamp : UInt64) (taken payloads : List Bytes) :
    Except RukaError Batch → Prop
  | tooLarge (payload : Bytes) (rest : List Bytes)
      (shape : payloads = leading maxBytes (tile.extend (stamped stamp taken)).bytes.length
        payloads ++ payload :: rest)
      (large : maxBytes < 28 + payload.length) :
      FillEnds maxBytes tile stamp taken payloads (.error .messageTooLarge)
  | full (held : tile.messages ≠ []) (started : taken = [])
      (nothing : leading maxBytes (tile.extend (stamped stamp taken)).bytes.length payloads = [])
      (admitted : ∀ payload ∈ payloads.head?, 28 + payload.length ≤ maxBytes) :
      FillEnds maxBytes tile stamp taken payloads (.error (.segmentFull tile.bytes.length maxBytes))
  | filled (more rest : List Bytes) (shape : payloads = more ++ rest)
      (progress : taken ++ more = [] → payloads = [])
      (bounded : (tile.extend (stamped stamp (taken ++ more))).Bounded maxBytes)
      (most : more = leading maxBytes (tile.extend (stamped stamp taken)).bytes.length payloads)
      (admitted : ∀ payload ∈ rest.head?, 28 + payload.length ≤ maxBytes) :
      FillEnds maxBytes tile stamp taken payloads (.ok (Batch.holding tile stamp (taken ++ more)))

private theorem fill_ensures (stamp : UInt64) (payloads taken : List Bytes)
    (bounded : (tile.extend (stamped stamp taken)).Bounded maxBytes) :
    ((tile.segment dir maxBytes syncLevel).fill stamp.toNat payloads
        (Batch.holding tile stamp taken)).Ensures world
      (Overflows maxBytes tile.nextOffset (taken.length + payloads.length))
      (fun answer after => after = world ∧ FillEnds maxBytes tile stamp taken payloads answer) := by
  induction payloads generalizing taken with
  | nil =>
    have ended : FillEnds maxBytes tile stamp taken [] _ :=
      .filled [] [] rfl (fun _ => rfl) (by simpa using bounded) rfl nofun
    rw [List.append_nil] at ended
    exact Program.ensures_of_run rfl ⟨rfl, ended⟩
  | cons payload rest ih =>
    have size := bounded.size
    have physical : (Batch.holding tile stamp taken).physicalPosition =
        (tile.extend (stamped stamp taken)).bytes.length := rfl
    unfold fill
    split
    · rename_i large
      simp only [Tile.segment] at large
      have nothing : leading maxBytes (tile.extend (stamped stamp taken)).bytes.length
          (payload :: rest) = [] :=
        if_neg (by omega)
      exact Program.ensures_of_run rfl ⟨rfl, .tooLarge payload rest (by rw [nothing]; rfl) large⟩
    rename_i small
    simp only [Tile.segment] at small
    have admitted : ∀ other ∈ (payload :: rest).head?, 28 + other.length ≤ maxBytes := by
      rintro other ⟨⟩
      omega
    refine Program.ensures_bind_checked (fun past => ?_) fun width => ?_
    · left
      omega
    split
    · rename_i overfull
      simp only [Tile.segment] at overfull
      have nothing : leading maxBytes (tile.extend (stamped stamp taken)).bytes.length
          (payload :: rest) = [] :=
        if_neg (by omega)
      split
      · rename_i nonempty
        have ended : FillEnds maxBytes tile stamp taken (payload :: rest) _ :=
          .filled [] (payload :: rest) rfl
            (fun idle => by simp_all [Batch.holding]) (by simpa using bounded) nothing.symm admitted
        rw [List.append_nil] at ended
        exact Program.ensures_of_run rfl ⟨rfl, ended⟩
      · rename_i idle
        have started : taken = [] := by simpa [Batch.holding] using idle
        have held : tile.messages ≠ [] := by
          intro empty
          have zero : (Batch.holding tile stamp taken).physicalPosition = 0 := by
            simp [Batch.holding, started, stamped, Tile.bytes_extend,
              Tile.bytes_eq_nil empty, numbered]
          omega
        exact Program.ensures_of_run rfl ⟨rfl, .full held started nothing admitted⟩
    · rename_i room
      have length : (Record.encode ⟨(Batch.holding tile stamp taken).currentOffset,
          stamp.toNat, none, some payload⟩).length = 28 + payload.length := by
        simp only [Record.length_encode, recordLen, fieldLen, Option.map_none, Option.map_some,
          Option.getD_none, Option.getD_some]
      have current : (Batch.holding tile stamp taken).currentOffset =
          tile.nextOffset + taken.length := by
        simp [Batch.holding, Tile.nextOffset_extend]
      have grown := Batch.holding_snoc tile stamp taken payload
      simp only [Tile.segment] at room
      refine Program.ensures_bind_checked (fun past => by omega) fun _ => ?_
      refine Program.ensures_bind_checked (fun past => ?_) fun offsets => ?_
      · right
        simp only [List.length_cons]
        omega
      have newSize := congrArg Batch.physicalPosition grown
      have newOffset := congrArg Batch.currentOffset grown
      simp only [length] at newSize
      simp only [Batch.holding] at newSize newOffset physical
      have takes : leading maxBytes (tile.extend (stamped stamp taken)).bytes.length
          (payload :: rest) = payload ::
            leading maxBytes (tile.extend
              (stamped stamp (taken ++ [payload]))).bytes.length rest := by
        simp only [Batch.holding] at room
        rw [newSize]
        exact if_pos (by omega)
      have larger : (tile.extend (stamped stamp (taken ++ [payload]))).Bounded maxBytes := by
        refine ⟨?_, ?_, ?_⟩
        all_goals simp only [Batch.holding] at room offsets width
        all_goals omega
      have tail := ih (taken ++ [payload]) larger
      rw [grown] at tail
      refine tail.mono (fun overflow => ?_) fun answer after => ?_
      · simpa [Overflows, Nat.add_assoc, Nat.add_comm 1] using overflow
      · rintro ⟨rfl, ended⟩
        refine ⟨rfl, ?_⟩
        cases ended with
        | tooLarge other behind shape large =>
          refine .tooLarge other behind ?_ large
          rw [takes, List.cons_append, ← shape]
        | full held started nothing admitted => simp at started
        | filled more rest shape progress bounded most admitted =>
          have assoc : taken ++ [payload] ++ more = taken ++ (payload :: more) := by simp
          rw [assoc] at bounded ⊢
          exact .filled (payload :: more) rest (by rw [shape]; rfl)
            (fun unfilled => by simp at unfilled) bounded (by rw [takes, most]) admitted

/-- How `Segment::append_batch` can end on a batch with payloads in it. -/
inductive BatchEnds (world : World) (dir : Path) (maxBytes : Nat) (syncLevel : SyncLevel)
    (tile : Tile) (payloads : List Bytes) : Except RukaError (Nat × Nat) × Segment → World → Prop
  | tooLarge (payload : Bytes) (rest : List Bytes)
      (shape : payloads = leading maxBytes tile.bytes.length payloads ++ payload :: rest)
      (large : maxBytes < 28 + payload.length) :
      BatchEnds world dir maxBytes syncLevel tile payloads
        (.error .messageTooLarge, tile.segment dir maxBytes syncLevel) world.tick
  | full (held : tile.messages ≠ []) (nothing : leading maxBytes tile.bytes.length payloads = [])
      (admitted : ∀ payload ∈ payloads.head?, 28 + payload.length ≤ maxBytes) :
      BatchEnds world dir maxBytes syncLevel tile payloads
        (.error (.segmentFull tile.bytes.length maxBytes),
          tile.segment dir maxBytes syncLevel) world.tick
  | stored (stamp : UInt64) (taken rest : List Bytes) (shape : payloads = taken ++ rest)
      (progress : taken ≠ []) (bounded : (tile.extend (stamped stamp taken)).Bounded maxBytes)
      (most : taken = leading maxBytes tile.bytes.length payloads)
      (admitted : ∀ payload ∈ rest.head?, 28 + payload.length ≤ maxBytes) :
      BatchEnds world dir maxBytes syncLevel tile payloads
        (.ok (tile.nextOffset, taken.length),
          (tile.extend (stamped stamp taken)).segment dir maxBytes syncLevel)
        ((tile.extend (stamped stamp taken)).lay world.tick dir)

/-- The batch begins in a segment of this size: some payloads fit, and the one
behind them is not too large for any segment. -/
def Begins (maxBytes size : Nat) (payloads : List Bytes) : Prop :=
  leading maxBytes size payloads ≠ [] ∧
    ∀ payload ∈ (payloads.drop (leading maxBytes size payloads).length).head?,
    28 + payload.length ≤ maxBytes

instance (maxBytes size : Nat) (payloads : List Bytes) :
    Decidable (Begins maxBytes size payloads) := by
  unfold Begins
  infer_instance

theorem begins_of_leading (shape : payloads = taken ++ rest) (progress : taken ≠ [])
    (most : taken = leading maxBytes size payloads)
    (admitted : ∀ payload ∈ rest.head?, 28 + payload.length ≤ maxBytes) :
    Begins maxBytes size payloads := by
  rw [Begins, ← most, show payloads.drop taken.length = rest by rw [shape, List.drop_left]]
  exact ⟨progress, admitted⟩

/-- The loop as `append_batch` starts it. -/
theorem fill_start_ensures (bounded : tile.Bounded maxBytes) (stamp : UInt64)
    (payloads : List Bytes) : ((tile.segment dir maxBytes syncLevel).fill stamp.toNat payloads
        ⟨[], [], tile.bytes.length, tile.nextOffset, 0⟩).Ensures world
          (Overflows maxBytes tile.nextOffset payloads.length)
      (fun answer after => after = world ∧ FillEnds maxBytes tile stamp [] payloads answer) := by
  have start : Batch.holding tile stamp [] = ⟨[], [], tile.bytes.length, tile.nextOffset, 0⟩ := by
    simp [Batch.holding, stamped, Tile.bytes_extend, Tile.nextOffset_extend, numbered, positions]
  have nothing : (tile.extend (stamped stamp [])).Bounded maxBytes := by
    refine ⟨?_, ?_, ?_⟩
    · simpa [Tile.bytes_extend, stamped, numbered] using bounded.size
    · simpa [Tile.bytes_extend, stamped, numbered] using bounded.width
    · simpa [Tile.nextOffset_extend, stamped] using bounded.offsets
  have filled : ((tile.segment dir maxBytes syncLevel).fill stamp.toNat payloads
      (Batch.holding tile stamp [])).Ensures world _ _ := fill_ensures stamp payloads [] nothing
  rw [start] at filled
  simpa only [List.length_nil, Nat.zero_add] using filled

/-- The three ends of `Segment::append_batch`, with the records that were stored. -/
theorem appendBatch_outcome (disk : tile.OnDisk world dir) (bounded : tile.Bounded maxBytes)
    (payloads : List Bytes) (atEnd : Begins maxBytes tile.bytes.length payloads → tile.AtEnd)
    (nonempty : payloads ≠ []) :
    ((tile.segment dir maxBytes syncLevel).appendBatch payloads).Ensures world
      (Overflows maxBytes tile.nextOffset payloads.length) fun reply after =>
        (∃ payload rest, payloads = leading maxBytes tile.bytes.length payloads ++ payload :: rest ∧
          maxBytes < 28 + payload.length ∧
          reply = (.error .messageTooLarge, tile.segment dir maxBytes syncLevel) ∧
          after = world.tick) ∨
        (tile.messages ≠ [] ∧ leading maxBytes tile.bytes.length payloads = [] ∧
          (∀ payload ∈ payloads.head?, 28 + payload.length ≤ maxBytes) ∧
          reply = (.error (.segmentFull tile.bytes.length maxBytes),
            tile.segment dir maxBytes syncLevel) ∧
          after = world.tick) ∨
        ∃ taken rest, payloads = taken ++ rest ∧ taken ≠ [] ∧
          (tile.extend (stamped world.stamp taken)).Bounded maxBytes ∧
          taken = leading maxBytes tile.bytes.length payloads ∧
          (∀ payload ∈ rest.head?, 28 + payload.length ≤ maxBytes) ∧
          reply = (.ok (tile.nextOffset, taken.length),
            (tile.extend (stamped world.stamp taken)).segment dir maxBytes syncLevel) ∧
          after = (tile.extend (stamped world.stamp taken)).lay world.tick dir := by
  have filled : ((tile.segment dir maxBytes syncLevel).fill world.stamp.toNat payloads
      ⟨[], [], tile.bytes.length, tile.nextOffset, 0⟩).Ensures world.tick _ _ :=
    fill_start_ensures bounded world.stamp payloads
  rw [world.toNat_stamp] at filled
  unfold appendBatch
  rw [if_neg nonempty]
  refine Program.ensures_bind_of_run (run_now world) (Program.ensures_bind filled ?_)
  rintro answer after ⟨rfl, ended⟩
  have start : (tile.extend (stamped world.stamp [])).bytes.length = tile.bytes.length := by
    simp [Tile.bytes_extend, stamped, numbered]
  cases ended with
  | tooLarge payload behind shape large =>
    rw [start] at shape
    exact Program.ensures_of_run rfl (.inl ⟨payload, behind, shape, large, rfl, rfl⟩)
  | full held started nothing admitted =>
    rw [start] at nothing
    exact Program.ensures_of_run rfl (.inr (.inl ⟨held, nothing, admitted, rfl, rfl⟩))
  | filled taken rest shape progress bounded most admitted =>
    rw [start] at most
    simp only [List.nil_append] at bounded progress ⊢
    have takes : taken ≠ [] := fun empty => nonempty (progress empty)
    have writes : (Batch.holding tile world.stamp taken).buf ≠ [] := by
      refine List.length_pos_iff.mp (encodeAll_length_pos fun empty => takes ?_)
      simpa using congrArg List.length empty
    rw [if_neg writes]
    have begins := begins_of_leading shape takes most admitted
    apply Program.ensures_bind_of_run (run_store maxBytes syncLevel disk.tick (atEnd begins) _)
    refine Program.ensures_bind_checked (fun past => ?_) fun _ => ?_
    · have width := bounded.width
      simp only [Tile.bytes_extend, List.length_append] at width
      simp only [Batch.holding] at past
      omega
    refine Program.ensures_of_run rfl
      (.inr (.inr ⟨taken, rest, shape, takes, bounded, most, admitted, ?_, rfl⟩))
    simp only [Tile.segment, Tile.bytes_extend, List.length_append]
    rfl

theorem appendBatch_ensures (disk : tile.OnDisk world dir) (bounded : tile.Bounded maxBytes)
    (payloads : List Bytes) (atEnd : Begins maxBytes tile.bytes.length payloads → tile.AtEnd)
    (nonempty : payloads ≠ []) :
    ((tile.segment dir maxBytes syncLevel).appendBatch payloads).Ensures world
      (Overflows maxBytes tile.nextOffset payloads.length)
      (BatchEnds world dir maxBytes syncLevel tile payloads) := by
  refine (appendBatch_outcome disk bounded payloads atEnd nonempty).mono
    (fun overflow => overflow) ?_
  rintro _ _ (⟨payload, rest, shape, large, rfl, rfl⟩ | ⟨held, nothing, admitted, rfl, rfl⟩ |
    ⟨taken, rest, shape, takes, bounded, most, admitted, rfl, rfl⟩)
  · exact .tooLarge payload rest shape large
  · exact .full held nothing admitted
  · exact .stored world.stamp taken rest shape takes bounded most admitted

/-- The two calls that make the files of a segment. -/
theorem run_create_files (baseOffset : Nat) (present : world.HasDirectory dir)
    (freeLog : world.node (logPath dir baseOffset) = none)
    (freeIndex : world.node (indexPath dir baseOffset) = none) :
    (File.openWith (logPath dir baseOffset) { create := true, append := true }).run world =
        (.ok (.ok ⟨logPath dir baseOffset, true, 0⟩), world.put (logPath dir baseOffset) []) ∧
      (File.openWith (indexPath dir baseOffset) { create := true, truncate := true }).run
          (world.put (logPath dir baseOffset) []) =
        (.ok (.ok ⟨indexPath dir baseOffset, false, 0⟩),
          (Tile.fresh baseOffset).lay world dir) := by
  have parent : world.isDirectory dir = true := present.isDirectory
  have other := Ne.symm (logPath_ne_indexPath dir baseOffset baseOffset)
  have dirIsNoLog : dir ≠ logPath dir baseOffset := by simp [logPath]
  have free := (World.node_put_ne world [] other).trans freeIndex
  exact ⟨File.run_openWith_create freeLog (logPath_ne_nil dir baseOffset) _ rfl
    (by simpa [logPath] using parent),
    File.run_openWith_create free (indexPath_ne_nil dir baseOffset) _ rfl
      (by simpa [indexPath] using (World.isDirectory_put_ne world [] dirIsNoLog).trans parent)⟩

/-- Two new files next to the others. -/
theorem run_create (baseOffset maxBytes : Nat) (syncLevel : SyncLevel)
    (present : world.HasDirectory dir) (freeLog : world.node (logPath dir baseOffset) = none)
    (freeIndex : world.node (indexPath dir baseOffset) = none) :
    (create dir baseOffset maxBytes syncLevel).run world =
      (.ok (.ok ((Tile.fresh baseOffset).segment dir maxBytes syncLevel)),
        (Tile.fresh baseOffset).lay world dir) := by
  obtain ⟨opened, indexed⟩ := run_create_files baseOffset present freeLog freeIndex
  unfold create Index.create
  rw [Program.run_bind_of_run (run_createDirAll_present present)]
  simp only
  rw [Program.run_bind_of_run opened]
  simp only
  rw [Program.run_bind_of_run (Program.run_bind_of_run indexed _)]
  rfl

/-- Without files of these names `Segment::create` only fails on a directory
that stands in the place of one of them. -/
theorem create_ensures (baseOffset maxBytes : Nat) (syncLevel : SyncLevel)
    (present : world.HasDirectory dir) (noLog : world.file? (logPath dir baseOffset) = none)
    (noIndex : world.file? (indexPath dir baseOffset) = none) :
    (create dir baseOffset maxBytes syncLevel).Ensures world False fun answer after =>
      (world.Nests dir ∧ ∃ error, answer = .error (.io error)) ∨
        (world.node (logPath dir baseOffset) = none ∧ world.node (indexPath dir baseOffset) = none ∧
          answer = .ok ((Tile.fresh baseOffset).segment dir maxBytes syncLevel) ∧
          after = (Tile.fresh baseOffset).lay world dir) := by
  rcases World.node_of_no_file noLog with freeLog | taken
  · rcases World.node_of_no_file noIndex with freeIndex | taken
    · exact Program.ensures_of_run
        (run_create baseOffset maxBytes syncLevel present freeLog freeIndex)
          (.inr ⟨freeLog, freeIndex, rfl, rfl⟩)
    · have opened := File.run_openWith_create freeLog (logPath_ne_nil dir baseOffset)
        { create := true, append := true } rfl (by simpa [logPath] using present.isDirectory)
      have other := Ne.symm (logPath_ne_indexPath dir baseOffset baseOffset)
      have still := (World.node_put_ne world [] other).trans taken
      refine Program.ensures_bind_of_run (run_createDirAll_present present)
        (Program.ensures_bind_of_run opened (Program.ensures_bind_of_run
          (Program.run_bind_of_run (File.run_openWith_directory still _) _) ?_))
      exact Program.ensures_of_run rfl (.inl ⟨⟨_, taken⟩, _, rfl⟩)
  · refine Program.ensures_bind_of_run (run_createDirAll_present present)
      (Program.ensures_bind_of_run (File.run_openWith_directory taken _) ?_)
    exact Program.ensures_of_run rfl (.inl ⟨⟨_, taken⟩, _, rfl⟩)

end Segment

end Ruka
