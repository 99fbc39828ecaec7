import Ruka.SegmentReads

/-! What `Segment::load` makes of the files it finds. An index file that is of
no use is rebuilt from the log; one that has entries is believed, also when it
knows more records than the log still holds. -/
namespace Ruka
open BigEndian LexicalPaths FilePrograms DecimalNames

/-- An index file from which not a single entry can be taken. -/
inductive LostIndex (world : World) (path : Path) : Prop
  | missing (absent : world.node path = none)
  | empty (held : world.file? path = some [])
  | torn {data : Bytes} (held : world.file? path = some data) (cut : data.length % 16 ≠ 0)

namespace Segment
variable {world : World} {dir path : Path} {tile : Tile}

/-- Such a file is replaced by an empty one. -/
theorem run_loadIndex_lost (lost : LostIndex world path) (below : path ≠ [])
    (parent : world.isDirectory path.dropLast = true) :
    (loadIndex path).run world = (.ok (.ok (Index.holding path [])), world.put path []) := by
  unfold loadIndex
  cases lost with
  | missing absent =>
    have noFile : world.file? path = none := by simp [World.file?, absent]
    obtain ⟨error, failed⟩ := Index.run_load_missing noFile
    rw [Program.run_bind_of_run failed]
    exact Index.run_create_fresh absent below parent
  | empty held =>
    rw [Program.run_bind_of_run (Index.run_load [] held below (by simp)), World.put_held held]
    rfl
  | torn held cut =>
    rw [Program.run_bind_of_run (Index.run_load_torn held below cut)]
    exact Index.run_create_existing held below

/-- With the index lost, loading gives the segment its log determines. -/
theorem run_load_lost (maxBytes : Nat) (syncLevel : SyncLevel) (small : Small tile.messages)
    (width : tile.nextOffset < 2 ^ 64) (torn : Record.decode tail = some (.ok none, tail))
    (directory : world.isDirectory dir = true)
    (log : world.file? (logPath dir tile.baseOffset) = some (tile.bytes ++ tail))
    (lost : LostIndex world (indexPath dir tile.baseOffset)) :
    ∃ after, (load dir tile.baseOffset maxBytes syncLevel).run world =
        (.ok (.ok (tile.reopened.segment dir maxBytes syncLevel)), after) ∧
        tile.reopened.OnDisk after dir := by
  have loaded := run_loadIndex_lost lost (indexPath_ne_nil dir _)
    (by simpa [indexPath] using directory)
  have ran := run_load_from maxBytes syncLevel small width torn [] log loaded
    ((World.file?_put_ne _ _ (logPath_ne_indexPath dir _ _)).trans log) (World.file?_put _ _ _)
  refine ⟨_, ran, World.file?_put _ _ _, ?_⟩
  rw [World.file?_put_ne _ _ (Ne.symm (logPath_ne_indexPath dir _ _))]
  exact World.file?_put _ _ _

end Segment

/-- A proper part of a record is not taken for a record. -/
theorem Record.decode_proper_start {record : Record} {tail : Bytes} (fits : record.Fits)
    (starts : tail <+: record.encode)
    (proper : tail ≠ record.encode) : Record.decode tail = some (.ok none, tail) := by
  have shorter : tail.length < record.encode.length :=
    Nat.lt_of_le_of_ne starts.length_le fun same => proper (starts.eq_of_length same)
  have shape := List.prefix_iff_eq_take.mp starts
  have torn := decode_torn fits tail.length shorter
  rwa [← shape] at torn

private theorem record_mem_numbered {messages : List Message} {place : Nat}
    (held : messages[place]? = some message) :
    message.record (offset + place) ∈ numbered offset messages := by
  have found := numbered_getElem? offset messages place
  rw [held] at found
  exact List.mem_of_getElem? found

/-- `read_at` by the records of the log: each is found under its offset, and
nothing under any other. -/
theorem Segment.run_readAt_records {world : World} {dir : Path} {tile : Tile} (maxBytes : Nat)
    (syncLevel : SyncLevel) (disk : tile.OnDisk world dir) (width : tile.nextOffset < 2 ^ 64)
    (small : Small tile.messages) : (∀ record ∈ tile.records, ∃ later,
        ((tile.segment dir maxBytes syncLevel).readAt record.offset).run world =
          (.ok (.ok (some record), later), world)) ∧
      ∀ offset, (∀ record ∈ tile.records, record.offset ≠ offset) → ∃ later,
        ((tile.segment dir maxBytes syncLevel).readAt offset).run world =
          (.ok (.ok none, later), world) := by
  constructor
  · intro record member
    obtain ⟨place, held⟩ := List.mem_iff_getElem?.mp member
    rw [Tile.records, numbered_getElem?] at held
    obtain ⟨message, found, rfl⟩ := Option.map_eq_some_iff.mp held
    obtain ⟨cursor, ran⟩ :=
      run_readAt maxBytes syncLevel disk width small (Nat.le_add_right tile.baseOffset place)
    rw [Nat.add_sub_cancel_left, found] at ran
    exact ⟨_, ran⟩
  · intro offset other
    by_cases low : tile.baseOffset ≤ offset
    · obtain ⟨cursor, ran⟩ := run_readAt maxBytes syncLevel disk width small low
      cases held : tile.messages[offset - tile.baseOffset]? with
      | none =>
        rw [held] at ran
        exact ⟨_, ran⟩
      | some message =>
        have same : tile.baseOffset + (offset - tile.baseOffset) = offset := by omega
        exact absurd same (other _ (record_mem_numbered held))
    · refine ⟨tile.segment dir maxBytes syncLevel, ?_⟩
      rw [readAt, if_pos (.inl (Nat.lt_of_not_le low))]
      rfl

/-- Without a usable index, and with the last record torn, loading recovers
every whole record: log, counters, index and reads. -/
theorem lost_index_recovered (world : World) (dir : Path) (baseOffset maxBytes : Nat)
    (syncLevel : SyncLevel) (messages : List Message) (further : Record) (tail : Bytes)
    (small : ∀ record ∈ numbered baseOffset messages, record.encode.length < 2 ^ 32)
    (offsets : baseOffset + messages.length < 2 ^ 64) (fits : further.Fits)
    (starts : tail <+: further.encode) (proper : tail ≠ further.encode)
    (directory : world.isDirectory dir = true)
    (log : world.file? (logPath dir baseOffset) =
      some (encodeAll (numbered baseOffset messages) ++ tail))
    (lost : LostIndex world (indexPath dir baseOffset)) :
    ∃ segment after,
      (Segment.load dir baseOffset maxBytes syncLevel).run world = (.ok (.ok segment), after) ∧
      after.file? (logPath dir baseOffset) = some (encodeAll (numbered baseOffset messages)) ∧
      segment.nextOffset = baseOffset + messages.length ∧
      segment.currentSize = (encodeAll (numbered baseOffset messages)).length ∧
      segment.index.entries = positions 0 (numbered baseOffset messages) ∧
      after.file? (indexPath dir baseOffset) =
        some (encodeEntries (positions 0 (numbered baseOffset messages))) ∧
      ∀ cursor, let moved := { segment with logFile := segment.logFile.seekStart cursor }
        (∀ record ∈ numbered baseOffset messages, ∃ later,
          (moved.readAt record.offset).run after = (.ok (.ok (some record), later), after)) ∧
        ∀ offset, (∀ record ∈ numbered baseOffset messages, record.offset ≠ offset) → ∃ later,
          (moved.readAt offset).run after = (.ok (.ok none, later), after) := by
  have torn := Record.decode_proper_start fits starts proper
  have smallMessages : Small messages := by
    intro message member
    obtain ⟨place, held⟩ := List.mem_iff_getElem?.mp member
    have size := small _ (record_mem_numbered held)
    rwa [Record.length_encode] at size
  obtain ⟨after, ran, disk⟩ :=
    @Segment.run_load_lost world dir ⟨baseOffset, messages, false, 0⟩ tail maxBytes syncLevel
      smallMessages offsets torn directory log lost
  refine ⟨_, after, ran, disk.log, rfl, rfl, rfl, disk.index, fun cursor => ?_⟩
  have cursorless : ((⟨baseOffset, messages, false, cursor⟩ : Tile)).OnDisk after dir :=
    ⟨disk.log, disk.index⟩
  exact Segment.run_readAt_records maxBytes syncLevel cursorless offsets smallMessages

/-- A log of one record and the start of another, next to an index file of three bytes. -/
theorem lost_index_recovered_torn :
    let records := numbered 5 [⟨0, none, some [1]⟩]
    let further : Record := ⟨6, 0, none, some [2]⟩
    let world := (blankWorld.put (logPath [] 5) (encodeAll records ++ further.encode.take 9)).put
      (indexPath [] 5) [1, 2, 3]
    ∃ segment after, (Segment.load [] 5 1000 .none).run world = (.ok (.ok segment), after) ∧
      after.file? (logPath [] 5) = some (encodeAll records) ∧ segment.nextOffset = 6 ∧
      segment.index.entries = [⟨5, 0⟩] := by
  intro records further world
  have fits : further.Fits := ⟨by decide, by decide, by decide⟩
  have log : world.file? (logPath [] 5) = some (encodeAll records ++ further.encode.take 9) := by
    rw [World.file?_put_ne _ _ (logPath_ne_indexPath [] 5 5), World.file?_put]
  obtain ⟨segment, after, ran, cut, next, -, entries, -⟩ :=
    lost_index_recovered world [] 5 1000 .none [⟨0, none, some [1]⟩] further (further.encode.take 9)
      (by decide) (by decide) fits (List.take_prefix _ _)
    (by decide) rfl log (.torn (World.file?_put _ _ _) (by decide))
  exact ⟨segment, after, ran, cut, next, entries⟩

end Ruka
