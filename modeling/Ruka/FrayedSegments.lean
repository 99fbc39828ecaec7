import Ruka.CachedPrograms
import Ruka.AppendOnlyRefinement
import Ruka.SegmentRecovery

/-! A segment on a machine that stops. What is found of it is its log, with a torn
record behind the whole ones, and an index file that is useless or knows some of
the records; a segment loaded from that goes on with a log that is whole and an
index that may not be. -/
namespace Ruka
open BigEndian LexicalPaths FilePrograms FilePrograms.Cached DecimalNames

namespace Tile
variable {tile : Tile} {sure : Nat → Prop} {known old new : List IndexEntry} {data : Bytes}

/-- What its log can hold: the records and a part of another one. -/
def LogLeft (tile : Tile) (data : Bytes) : Prop :=
  ∃ tail, data = tile.bytes ++ tail ∧ Record.decode tail = some (.ok none, tail)

/-- Entries of the tile, among them those of the offsets in `sure`. -/
structure Indexes (sure : Nat → Prop) (tile : Tile) (known : List IndexEntry) : Prop where
  sub : known.Sublist tile.entries
  kept : ∀ entry ∈ tile.entries, sure entry.offset → entry ∈ known

/-- What its index file can hold: bytes a load throws away, or such entries. -/
def IndexLeft (sure : Nat → Prop) (tile : Tile) (data : Bytes) : Prop :=
  data.length % 16 ≠ 0 ∨ data = [] ∨ ∃ known, data = encodeEntries known ∧ tile.Indexes sure known

theorem logLeft_bytes (tile : Tile) : tile.LogLeft tile.bytes := ⟨[], (List.append_nil _).symm, rfl⟩

theorem Indexes.of_imp {fewer : Nat → Prop} (indexes : tile.Indexes sure known)
    (implies : ∀ entry ∈ tile.entries, fewer entry.offset → sure entry.offset) :
    tile.Indexes fewer known :=
  ⟨indexes.sub, fun entry member found => indexes.kept entry member (implies entry member found)⟩

theorem IndexLeft.of_imp {fewer : Nat → Prop} (left : tile.IndexLeft sure data)
    (implies : ∀ entry ∈ tile.entries, fewer entry.offset → sure entry.offset) :
    tile.IndexLeft fewer data :=
  left.imp_right fun stays => stays.imp_right fun ⟨known, shape, indexes⟩ =>
    ⟨known, shape, indexes.of_imp implies⟩

/-- New records are not sure before they are indexed. -/
theorem Indexes.extend (indexes : tile.Indexes sure known)
    (bound : ∀ offset, sure offset → offset < tile.nextOffset) (more : List Message) :
    (tile.extend more).Indexes sure known := by
  constructor
  · rw [entries_extend]
    exact indexes.sub.trans (List.sublist_append_left _ _)
  · intro entry member found
    rw [entries_extend] at member
    rcases List.mem_append.mp member with before | added
    · exact indexes.kept entry before found
    · exact absurd (bound _ found) (Nat.not_lt.mpr (offset_bounds_of_mem_positions added).1)

theorem IndexLeft.extend (left : tile.IndexLeft sure data)
    (bound : ∀ offset, sure offset → offset < tile.nextOffset) (more : List Message) :
    (tile.extend more).IndexLeft sure data :=
  left.imp_right fun stays => stays.imp_right fun ⟨known, shape, indexes⟩ =>
    ⟨known, shape, indexes.extend bound more⟩

/-- A first part of an index file that ends with an entry. -/
theorem take_encodeEntries (entries : List IndexEntry) (count : Nat)
    (whole : ((encodeEntries entries).take count).length % 16 = 0) :
    (encodeEntries entries).take count =
      encodeEntries (entries.take (((encodeEntries entries).take count).length / 16)) := by
  have length := length_encodeEntries entries
  generalize kept : ((encodeEntries entries).take count).length / 16 = listed
  have reach : ((encodeEntries entries).take count).length = 16 * listed := by omega
  have bound : listed ≤ entries.length := by
    rw [List.length_take] at reach
    omega
  have split : encodeEntries entries = encodeEntries (entries.take listed) ++
      encodeEntries (entries.drop listed) := by
    rw [← encodeEntries_append, List.take_append_drop]
  have front : (encodeEntries (entries.take listed)).length = 16 * listed := by
    rw [length_encodeEntries, List.length_take, Nat.min_eq_left bound]
  have same : (encodeEntries entries).take count = (encodeEntries entries).take (16 * listed) := by
    rw [← reach]
    exact (List.take_eq_take_min).trans (by rw [List.length_take])
  rw [same]
  conv_lhs => rw [split]
  exact List.take_left' front

/-- Entries written behind those the index has, cut anywhere. -/
theorem indexLeft_take (indexes : tile.Indexes sure old) (sub : (old ++ new).Sublist tile.entries)
    (count : Nat) : tile.IndexLeft sure
      ((encodeEntries (old ++ new)).take (16 * old.length + count)) := by
  by_cases whole : ((encodeEntries (old ++ new)).take (16 * old.length + count)).length % 16 = 0
  · refine .inr (.inr ⟨_, take_encodeEntries _ _ whole, (List.take_sublist _ _).trans sub,
      fun entry member found => ?_⟩)
    have enough : old.length ≤ ((encodeEntries (old ++ new)).take
        (16 * old.length + count)).length / 16 := by
      rw [List.length_take, length_encodeEntries, List.length_append]
      omega
    rw [List.take_append, List.take_of_length_le enough]
    exact List.mem_append_left _ (indexes.kept entry member found)
  · exact .inl whole

/-- The index rebuilt up to any point: before the end none of the records is sure. -/
theorem indexLeft_rebuilt (unsure : ∀ entry ∈ tile.entries, ¬ sure entry.offset) (count : Nat) :
    tile.IndexLeft sure ((encodeEntries tile.entries).take count) := by
  have unindexed : tile.Indexes sure [] :=
    ⟨List.nil_sublist _, fun entry member found => absurd found (unsure entry member)⟩
  have part := indexLeft_take unindexed (show ([] ++ tile.entries).Sublist tile.entries from
    List.Sublist.refl _) count
  simpa only [List.nil_append, List.length_nil, Nat.mul_zero, Nat.zero_add] using part

/-- A log written behind the records, cut anywhere. -/
theorem logLeft_take (tile : Tile) {more : List Message} (small : Small more)
    (width : tile.nextOffset + more.length ≤ 2 ^ 64) (count : Nat) :
    ∃ whole, whole <+: more ∧
      (tile.extend whole).LogLeft (tile.bytes ++
        (encodeAll (numbered tile.nextOffset more)).take count) := by
  obtain ⟨whole, rest, tail, rfl, torn, part⟩ := take_encodeAll more small width count
  refine ⟨whole, List.prefix_append _ _, tail, ?_, torn⟩
  rw [part, bytes_extend, List.append_assoc]

private theorem LogLeft.extend_nil (left : tile.LogLeft data) : (tile.extend []).LogLeft data := by
  obtain ⟨tail, shape, torn⟩ := left
  refine ⟨tail, ?_, torn⟩
  rw [bytes_extend, numbered, encodeAll_nil, List.append_nil, shape]

end Tile

variable {lossy : Prop} {state middle after : Cached lossy} {dir : Path} {tile : Tile}
  {sure : Nat → Prop} {crash : World → Prop}

/-- Nothing has changed but the two files of this segment. -/
def OnlyAt (dir : Path) (baseOffset : Nat) (state after : Cached lossy) : Prop :=
  ∀ probe, probe ≠ logPath dir baseOffset → probe ≠ indexPath dir baseOffset →
    state.Keeps after probe

private theorem OnlyAt.of_quiet (quiet : state.Quiet after) (dir : Path) (baseOffset : Nat) :
    OnlyAt dir baseOffset state after := fun probe _ _ => quiet probe

private theorem OnlyAt.trans (first : OnlyAt dir baseOffset state middle)
    (second : OnlyAt dir baseOffset middle after) : OnlyAt dir baseOffset state after :=
  fun probe notLog notIndex => (first probe notLog notIndex).trans (second probe notLog notIndex)

private theorem OnlyAt.of_log (turns : Turns (logPath dir baseOffset) allowed state after) :
    OnlyAt dir baseOffset state after := fun probe notLog _ => turns.others probe notLog

private theorem OnlyAt.of_index (turns : Turns (indexPath dir baseOffset) allowed state after) :
    OnlyAt dir baseOffset state after := fun probe _ notIndex => turns.others probe notIndex

/-- Whatever the machine comes up with, the files of the tile can be read back as the tile. -/
structure Tile.Legible (sure : Nat → Prop) (state : Cached lossy) (dir : Path)
    (tile : Tile) : Prop where
  log : state.world.file? (logPath dir tile.baseOffset) ≠ none
  logs : ∀ data, state.may (logPath dir tile.baseOffset) data → tile.LogLeft data
  index : state.world.node (indexPath dir tile.baseOffset) ≠ some .directory
  indexes : state.world.file? (indexPath dir tile.baseOffset) ≠ none →
    ∀ data, state.may (indexPath dir tile.baseOffset) data → tile.IndexLeft sure data

namespace Tile.Legible

theorem of_left (legible : tile.Legible sure state dir)
    (log : state.Left after (logPath dir tile.baseOffset))
    (index : state.Left after (indexPath dir tile.baseOffset)) : tile.Legible sure after dir where
  log := log.file? legible.log
  logs data held := legible.logs data (log.may data held)
  index := fun taken => legible.index (index.directory.mp taken)
  indexes there data held := legible.indexes (index.of_file? there) data (index.may data held)

private theorem quiet (legible : tile.Legible sure state dir) (quiet : state.Quiet after) :
    tile.Legible sure after dir :=
  legible.of_left (quiet _).left (quiet _).left

theorem of_imp {fewer : Nat → Prop} (legible : tile.Legible sure state dir)
    (implies : ∀ entry ∈ tile.entries, fewer entry.offset → sure entry.offset) :
    tile.Legible fewer state dir :=
  ⟨legible.log, legible.logs, legible.index,
    fun there data held => (legible.indexes there data held).of_imp implies⟩

/-- The log turns into something that is also a log of the tile. -/
theorem turn_log (legible : tile.Legible sure state dir)
    (turns : Turns (logPath dir tile.baseOffset) tile.LogLeft state after) :
    tile.Legible sure after dir :=
  have keeps := turns.others _ (logPath_ne_indexPath dir _ _).symm
  ⟨turns.file, turns.may, fun taken => legible.index (keeps.left.directory.mp taken),
    fun there data held => legible.indexes (keeps.left.of_file? there) data (keeps.may data held)⟩

/-- The index turns into something that is also an index of the tile. -/
theorem turn_index (legible : tile.Legible sure state dir)
    (turns : Turns (indexPath dir tile.baseOffset) (tile.IndexLeft sure) state after) :
    tile.Legible sure after dir :=
  have keeps := turns.others _ (logPath_ne_indexPath dir _ _)
  ⟨keeps.left.file? legible.log, fun data held => legible.logs data (keeps.may data held),
    (file?_ne_none.mp turns.file).2, fun _ => turns.may⟩

end Tile.Legible

/-- Only the files of the tile differ from what they were, and they are legible. -/
structure Tile.Touched (sure : Nat → Prop) (dir : Path) (tile : Tile)
    (state after : Cached lossy) : Prop where
  others : OnlyAt dir tile.baseOffset state after
  legible : tile.Legible sure after dir

namespace Tile.Touched

private theorem of_quiet (quiet : state.Quiet middle)
    (touched : tile.Touched sure dir middle after) : tile.Touched sure dir state after :=
  ⟨(OnlyAt.of_quiet quiet _ _).trans touched.others, touched.legible⟩

private theorem quiet (touched : tile.Touched sure dir state middle) (quiet : middle.Quiet after) :
    tile.Touched sure dir state after :=
  ⟨touched.others.trans (.of_quiet quiet _ _), touched.legible.quiet quiet⟩

private theorem turn_log (touched : tile.Touched sure dir state middle)
    (turns : Turns (logPath dir tile.baseOffset) tile.LogLeft middle after) :
    tile.Touched sure dir state after :=
  ⟨touched.others.trans (.of_log turns), touched.legible.turn_log turns⟩

private theorem turn_index (touched : tile.Touched sure dir state middle)
    (turns : Turns (indexPath dir tile.baseOffset) (tile.IndexLeft sure) middle after) :
    tile.Touched sure dir state after :=
  ⟨touched.others.trans (.of_index turns), touched.legible.turn_index turns⟩

end Tile.Touched

/-- A tile whose index knows some of its records. -/
structure Patch where
  tile : Tile
  known : List IndexEntry
  sub : known.Sublist tile.entries

namespace Patch
variable {patch : Patch} {world : World} {maxBytes : Nat} {level : SyncLevel}

def segment (dir : Path) (maxBytes : Nat) (level : SyncLevel) (patch : Patch) : Segment :=
  { patch.tile.segment dir maxBytes level with
    index := Index.holding (indexPath dir patch.tile.baseOffset) patch.known }

structure OnDisk (world : World) (dir : Path) (patch : Patch) : Prop where
  log : world.file? (logPath dir patch.tile.baseOffset) = some patch.tile.bytes
  index : world.file? (indexPath dir patch.tile.baseOffset) = some (encodeEntries patch.known)

def extend (patch : Patch) (more : List Message) : Patch where
  tile := patch.tile.extend more
  known := patch.known ++ positions patch.tile.bytes.length (numbered patch.tile.nextOffset more)
  sub := by
    rw [Tile.entries_extend]
    exact patch.sub.append (List.Sublist.refl _)

def fresh (baseOffset : Nat) : Patch := ⟨Tile.fresh baseOffset, [], List.nil_sublist _⟩

/-- Wherever the machine stops in the write of `more` behind this tile, `crash` holds. -/
structure Sheltered (sure : Nat → Prop) (crash : World → Prop) (state : Cached lossy) (dir : Path)
    (patch : Patch) (more : List Message) : Prop where
  log : ∀ middle, Turns (logPath dir patch.tile.baseOffset)
    (fun data => ∃ whole, whole <+: more ∧ (patch.tile.extend whole).LogLeft data) state middle →
    middle.Safe crash
  index : ∀ middle, (patch.tile.extend more).Touched sure dir state middle → middle.Safe crash

private theorem Sheltered.quiet (sheltered : patch.Sheltered sure crash state dir more)
    (quiet : state.Quiet after) : patch.Sheltered sure crash after dir more :=
  ⟨fun middle turns => sheltered.log middle (turns.of_quiet quiet),
    fun middle touched => sheltered.index middle (touched.of_quiet quiet)⟩

/-- The files after more messages were written. -/
structure Stored (sure : Nat → Prop) (level : SyncLevel) (dir : Path) (patch : Patch)
    (more : List Message) (state after : Cached lossy) : Prop where
  disk : (patch.extend more).OnDisk after.world dir
  touched : (patch.tile.extend more).Touched sure dir state after
  synced : (lossy → level = .logAndIndex) → ∀ data,
    after.may (indexPath dir patch.tile.baseOffset) data →
    data = encodeEntries (patch.extend more).known

private theorem Stored.of_quiet (stored : patch.Stored sure level dir more middle after)
    (quiet : state.Quiet middle) : patch.Stored sure level dir more state after :=
  ⟨stored.disk, stored.touched.of_quiet quiet, stored.synced⟩

end Patch

namespace Index
variable {path : Path} {allowed : Bytes → Prop}

/-- `Index::create` does nothing but open its file. -/
theorem weathers_create
      (opens : (File.openWith path { create := true, truncate := true }).Weathers state crash
        fun _ after => Turns path allowed state after) :
    (create path).Weathers state crash fun _ after => Turns path allowed state after := by
  refine Program.weathers_bind opens fun reply after safely turns => ?_
  cases reply <;> exact Program.weathers_pure safely turns

private theorem reading_readEntries (count : Nat) (file : File) :
    File.Reads (readEntries count file) file := by
  induction count generalizing file with
  | zero => exact ⟨file.cursor, rfl⟩
  | succ count ih =>
    refine Program.Reading.bind (File.reads_readExact file _) ?_
    rintro ⟨reply, first⟩ ⟨cursor, rfl⟩
    cases reply with
    | error error => exact ⟨cursor, rfl⟩
    | ok buf =>
      refine Program.Reading.bind (ih { file with cursor := cursor }) ?_
      rintro ⟨reply, second⟩ ⟨cursor, rfl⟩
      cases reply <;> exact ⟨cursor, rfl⟩

/-- `Index::load` changes nothing. -/
theorem weathers_load (path : Path) (safe : ∀ middle, state.Quiet middle → middle.Safe crash) :
    (load path).Weathers state crash fun _ after => state.Quiet after := by
  refine Program.weathers_bind (File.weathers_openWith path safe)
    fun opened first safely quiet => ?_
  cases opened with
  | error error => exact Program.weathers_pure safely quiet
  | ok file =>
    have length : file.len.Reading file.path fun _ => True := ⟨rfl, fun _ => trivial⟩
    refine Program.weathers_bind (length.weathers (fun middle later => safe _ (quiet.trans later))
      fun _ _ later _ _ => quiet.trans later) fun measured second safely quiet => ?_
    cases measured with
    | error error => exact Program.weathers_pure safely quiet
    | ok fileLen =>
      simp only
      split
      · exact Program.weathers_pure safely quiet
      refine Program.weathers_bind ((reading_readEntries _ (file.seekStart 0)).weathers
        (fun middle later => safe _ (quiet.trans later)) fun _ _ later _ _ => quiet.trans later) ?_
      rintro ⟨answer, file⟩ third safely quiet
      cases answer with
      | error error => exact Program.weathers_pure safely quiet
      | ok entries =>
        have ending : file.seekEnd.Reading file.path fun _ => True := ⟨rfl, fun _ => trivial⟩
        refine Program.weathers_bind
          (ending.weathers (fun middle later => safe _ (quiet.trans later)) fun _ _ later _ _ =>
            quiet.trans later) fun moved _ safely quiet => ?_
        cases moved <;> exact Program.weathers_pure safely quiet

end Index

namespace Segment
variable {patch : Patch} {maxBytes : Nat} {level : SyncLevel} {path : Path}
  {old more : List IndexEntry} {allowed : Bytes → Prop}

/-- Some entries cut inside the first one behind `old`. -/
private theorem take_first_entry (old : List IndexEntry) (entry : IndexEntry)
    (rest : List IndexEntry) (count : Nat) :
    (encodeEntries (old ++ entry :: rest)).take (16 * old.length + min count 16) =
      encodeEntries old ++ entry.encode.take count := by
  have size : entry.encode.length = 16 := IndexEntry.length_encode entry
  rw [encodeEntries_append, ← length_encodeEntries, List.take_length_add_append, encodeEntries_cons,
    List.take_append, size, show min count 16 - 16 = 0 by omega, List.take_zero, List.append_nil,
    ← List.take_take, List.take_of_length_le (Nat.le_of_eq size)]

/-- Some entries cut behind that one. -/
private theorem take_later_entries (old : List IndexEntry) (entry : IndexEntry)
    (rest : List IndexEntry) (count : Nat) :
    (encodeEntries (old ++ entry :: rest)).take (16 * old.length + (16 + count)) =
      (encodeEntries (old ++ [entry] ++ rest)).take (16 * (old ++ [entry]).length + count) := by
  rw [List.append_assoc, List.singleton_append, List.length_append, List.length_singleton,
    ← Nat.add_assoc]
  rfl

private theorem weathers_index_append (held : state.world.file? path = some (encodeEntries old))
    (offset position : Nat) (within : ∀ data, state.may path data → allowed data)
    (parts : ∀ count, allowed
      (encodeEntries old ++ (IndexEntry.encode ⟨offset, position⟩).take count))
    (safe : ∀ middle, Turns path allowed state middle → middle.Safe crash) :
    ((Index.holding path old).append offset position).Weathers state crash fun _ after =>
      Turns path allowed state after := by
  have atEnd : (Index.holding path old).file.AtEnd (encodeEntries old) :=
    .inr (by simp [Index.holding])
  unfold Index.append
  refine Program.weathers_bind_of_run (File.weathers_writeAll held rfl atEnd _ within parts safe)
    (File.run_writeAll held rfl atEnd _) fun after safely _ turns => ?_
  exact Program.weathers_pure safely turns

/-- Index entries reach their file one after the other. -/
theorem weathers_appendEntries (held : state.world.file? path = some (encodeEntries old))
    (more : List IndexEntry) (within : ∀ data, state.may path data → allowed data)
    (parts : ∀ count, allowed ((encodeEntries (old ++ more)).take (16 * old.length + count)))
    (safe : ∀ middle, Turns path allowed state middle → middle.Safe crash) :
    (appendEntries (Index.holding path old) more).Weathers state crash fun _ after =>
      Turns path allowed state after := by
  induction more generalizing old state with
  | nil =>
    have here := (Quiet.refl state).turns (by rw [held]; simp) within
    exact Program.weathers_pure (safe _ here) here
  | cons entry rest ih =>
    refine Program.weathers_bind_of_run
      (weathers_index_append held entry.offset entry.position within
        (fun count => take_first_entry old entry rest count ▸ parts _) safe)
      (Index.run_append held entry.offset entry.position) fun after _ disk turns => ?_
    exact (ih (by rw [disk]; exact World.file?_put _ _ _) turns.may
      (fun count => take_later_entries old entry rest count ▸ parts _) fun middle later =>
        safe _ (turns.trans later)).mono fun _ _ _ later => turns.trans later

/-- Where the machine is lossy the log is synced, so that it cannot come up with
anything else. -/
theorem weathers_syncLog (careful : lossy → level ≠ .none) (logFile : File)
    (held : state.world.file? logFile.path = some data)
    (safe : ∀ middle, state.Quiet middle → middle.Safe crash) :
    (syncLog level logFile).Weathers state crash fun _ after => state.Quiet after ∧
      ∀ found, after.may logFile.path found → found = data := by
  unfold syncLog
  split
  · rename_i never
    refine Program.weathers_pure (safe _ (.refl _)) ⟨.refl _, fun found possible => ?_⟩
    have now := state.durable (fun lost => careful lost never) _ _ possible
    exact Option.some.inj (now.symm.trans held)
  · refine (File.weathers_syncData logFile safe).mono fun _ after _ synced =>
      ⟨synced.1, fun found possible => ?_⟩
    exact Option.some.inj ((synced.2 found possible).symm.trans held)

private theorem weathers_syncIndex (level : SyncLevel) (index : Index)
    (held : state.world.file? index.file.path = some data)
    (safe : ∀ middle, state.Quiet middle → middle.Safe crash) :
    (syncIndex level index).Weathers state crash fun _ after => state.Quiet after ∧
      ((lossy → level = .logAndIndex) → ∀ found, after.may index.file.path found →
        found = data) := by
  unfold syncIndex
  split
  · refine Program.weathers_bind_of_run (File.weathers_syncData index.file safe)
      (File.run_syncData _ _) ?_
    rintro after safely - ⟨quiet, synced⟩
    refine Program.weathers_pure safely ⟨quiet, fun _ found possible => ?_⟩
    exact Option.some.inj ((synced found possible).symm.trans held)
  · rename_i other
    refine Program.weathers_pure (safe _ (.refl _)) ⟨.refl _, fun careful found possible => ?_⟩
    have now := state.durable (fun lost => other (careful lost)) _ _ possible
    exact Option.some.inj (now.symm.trans held)

/-- The write path of both append methods. -/
theorem weathers_store (maxBytes : Nat) (careful : lossy → level ≠ .none)
    (disk : patch.OnDisk state.world dir) (legible : patch.tile.Legible sure state dir)
    (indexes : patch.tile.Indexes sure patch.known)
    (bound : ∀ offset, sure offset → offset < patch.tile.nextOffset) (atEnd : patch.tile.AtEnd)
    {more : List Message} (small : Small more)
    (width : patch.tile.nextOffset + more.length ≤ 2 ^ 64)
    (sheltered : patch.Sheltered sure crash state dir more) :
    ((patch.segment dir maxBytes level).store (encodeAll (numbered patch.tile.nextOffset more))
        (positions patch.tile.bytes.length
          (numbered patch.tile.nextOffset more))).Weathers state crash
      fun reply after => reply = (.ok (), { (patch.extend more).segment dir maxBytes level with
          currentSize := patch.tile.bytes.length, nextOffset := patch.tile.nextOffset }) ∧
        patch.Stored sure level dir more state after := by
  have apart := logPath_ne_indexPath dir patch.tile.baseOffset patch.tile.baseOffset
  have behind : (patch.segment dir maxBytes level).logFile.AtEnd patch.tile.bytes := atEnd
  have written : ((patch.segment dir maxBytes level).logFile.writeAll
      (encodeAll (numbered patch.tile.nextOffset more))).run state.world =
      (.ok (.ok (), ((patch.extend more).segment dir maxBytes level).logFile),
        state.world.put (logPath dir patch.tile.baseOffset) (patch.tile.extend more).bytes) := by
    rw [Tile.bytes_extend]
    exact File.run_writeAll disk.log rfl behind _
  unfold store
  refine Program.weathers_bind_of_run (File.weathers_writeAll disk.log rfl behind _
    (fun data held => ⟨[], List.nil_prefix, (legible.logs data held).extend_nil⟩)
    (fun count => patch.tile.logLeft_take small width count) sheltered.log) written ?_
  intro logged _ loggedDisk turned
  have logHeld : logged.world.file? (logPath dir patch.tile.baseOffset) =
      some (patch.tile.extend more).bytes := by
    rw [loggedDisk, World.file?_put]
  refine Program.weathers_bind_of_run (weathers_syncLog careful _ logHeld fun middle quiet =>
    sheltered.log _ (turned.quiet quiet)) (run_syncLog _ _ _) ?_
  rintro flushed _ flushedDisk ⟨quiet, synced⟩
  -- from here on the records are in the log for good
  have exactly : Turns (logPath dir patch.tile.baseOffset) (· = (patch.tile.extend more).bytes)
      state flushed :=
    ⟨(turned.quiet quiet).file, synced, (turned.quiet quiet).others⟩
  have keeps := exactly.others _ apart.symm
  have whole : (patch.tile.extend more).Touched sure dir state flushed := by
    refine ⟨.of_log exactly, exactly.file, fun data held => ?_,
      fun taken => legible.index (keeps.left.directory.mp taken), fun there data held =>
        (legible.indexes (keeps.left.of_file? there) data (keeps.may data held)).extend bound more⟩
    obtain rfl := exactly.may data held
    exact Tile.logLeft_bytes _
  have indexHeld : flushed.world.file? (indexPath dir patch.tile.baseOffset) =
      some (encodeEntries patch.known) := by
    rw [keeps.file?_eq, disk.index]
  refine Program.weathers_bind_of_run (weathers_appendEntries indexHeld _
    (whole.legible.indexes (Option.ne_none_iff_exists'.mpr ⟨_, indexHeld⟩))
    (Tile.indexLeft_take (indexes.extend bound more) (patch.extend more).sub) fun middle turns =>
      sheltered.index _ (whole.turn_index turns)) (run_appendEntries indexHeld _) ?_
  intro indexed _ indexedDisk turns
  have knownHeld : indexed.world.file? (indexPath dir patch.tile.baseOffset) =
      some (encodeEntries (patch.extend more).known) := by
    rw [indexedDisk]
    exact World.file?_put _ _ _
  refine Program.weathers_bind_of_run (weathers_syncIndex level _ knownHeld fun middle quiet =>
    sheltered.index _ ((whole.turn_index turns).quiet quiet)) (run_syncIndex _ _ _) ?_
  rintro after safely afterDisk ⟨quiet, syncedIndex⟩
  have logKept : after.world.file? (logPath dir patch.tile.baseOffset) =
      some (patch.tile.extend more).bytes := by
    rw [afterDisk, (turns.others _ apart).file?_eq, flushedDisk, logHeld]
  rw [← afterDisk] at knownHeld
  exact Program.weathers_pure safely ⟨rfl, ⟨logKept, knownHeld⟩,
    (whole.turn_index turns).quiet quiet, syncedIndex⟩

end Segment

namespace Patch
variable {patch : Patch} {maxBytes : Nat} {level : SyncLevel}

private theorem OnDisk.quiet (disk : patch.OnDisk state.world dir) (quiet : state.Quiet after) :
    patch.OnDisk after.world dir :=
  ⟨(quiet _).file?_eq.trans disk.log, (quiet _).file?_eq.trans disk.index⟩

/-- How `Segment::append` can end. -/
inductive AppendEnds (sure : Nat → Prop) (dir : Path) (maxBytes : Nat) (level : SyncLevel)
    (patch : Patch) (key value : Option Bytes) (state : Cached lossy) :
    Except RukaError Nat × Segment → Cached lossy → Prop
  | tooLarge {later : Cached lossy} (large : maxBytes < recordLen key value)
      (quiet : state.Quiet later) :
      AppendEnds sure dir maxBytes level patch key value state
        (.error .messageTooLarge, patch.segment dir maxBytes level) later
  | full {later : Cached lossy} (held : patch.tile.messages ≠ []) (quiet : state.Quiet later) :
      AppendEnds sure dir maxBytes level patch key value state
        (.error (.segmentFull patch.tile.bytes.length maxBytes),
          patch.segment dir maxBytes level) later
  | stored {later : Cached lossy} (stamp : UInt64)
      (bounded : (patch.tile.extend [⟨stamp, key, value⟩]).Bounded maxBytes)
      (stored : patch.Stored sure level dir [⟨stamp, key, value⟩] state later) :
      AppendEnds sure dir maxBytes level patch key value state
        (.ok patch.tile.nextOffset,
          (patch.extend [⟨stamp, key, value⟩]).segment dir maxBytes level) later

/-- How `Segment::append_batch` can end on a batch with payloads in it. -/
inductive BatchEnds (sure : Nat → Prop) (dir : Path) (maxBytes : Nat) (level : SyncLevel)
    (patch : Patch) (payloads : List Bytes) (state : Cached lossy) :
    Except RukaError (Nat × Nat) × Segment → Cached lossy → Prop
  | tooLarge {later : Cached lossy} (large : ∃ payload ∈ payloads, maxBytes < 28 + payload.length)
      (quiet : state.Quiet later) :
      BatchEnds sure dir maxBytes level patch payloads state
        (.error .messageTooLarge, patch.segment dir maxBytes level) later
  | full {later : Cached lossy} (held : patch.tile.messages ≠ []) (quiet : state.Quiet later) :
      BatchEnds sure dir maxBytes level patch payloads state
        (.error (.segmentFull patch.tile.bytes.length maxBytes),
          patch.segment dir maxBytes level) later
  | stored {later : Cached lossy} (stamp : UInt64) (taken rest : List Bytes)
      (shape : payloads = taken ++ rest) (progress : taken ≠ [])
      (bounded : (patch.tile.extend (Segment.stamped stamp taken)).Bounded maxBytes)
      (stored : patch.Stored sure level dir (Segment.stamped stamp taken) state later) :
      BatchEnds sure dir maxBytes level patch payloads state
        (.ok (patch.tile.nextOffset, taken.length),
          (patch.extend (Segment.stamped stamp taken)).segment dir maxBytes level) later

/-- A patch that lies whole on the disk, and what is known about the other
contents its files can come up with. -/
structure Mounted (sure : Nat → Prop) (state : Cached lossy) (dir : Path) (maxBytes : Nat)
    (patch : Patch) : Prop where
  disk : patch.OnDisk state.world dir
  legible : patch.tile.Legible sure state dir
  indexes : patch.tile.Indexes sure patch.known
  bounded : patch.tile.Bounded maxBytes

private theorem Mounted.quiet (mounted : patch.Mounted sure state dir maxBytes)
    (quiet : state.Quiet after) : patch.Mounted sure after dir maxBytes :=
  ⟨mounted.disk.quiet quiet, mounted.legible.quiet quiet, mounted.indexes, mounted.bounded⟩

/-- Where a load has the index of a patch from: it is rebuilt, or is what the file says. -/
def IndexedFrom (world : World) (dir : Path) (patch : Patch) : Prop :=
  LostIndex world (indexPath dir patch.tile.baseOffset) ∧ patch.known = patch.tile.entries ∨
    patch.known ≠ [] ∧
      world.file? (indexPath dir patch.tile.baseOffset) = some (encodeEntries patch.known)

end Patch

namespace Segment
variable {patch : Patch} {maxBytes : Nat} {level : SyncLevel}

/-- `Segment::append`. -/
theorem weathers_append (careful : lossy → level ≠ .none)
    (mounted : patch.Mounted sure state dir maxBytes)
    (bound : ∀ offset, sure offset → offset < patch.tile.nextOffset) (key value : Option Bytes)
    (atEnd : patch.tile.bytes.length + recordLen key value ≤ maxBytes → patch.tile.AtEnd)
    (small : recordLen key value < 2 ^ 32) (offsets : patch.tile.nextOffset + 1 < 2 ^ 64)
    (safe : ∀ middle, state.Quiet middle → middle.Safe crash)
    (sheltered : ∀ stamp, (patch.tile.extend [⟨stamp, key, value⟩]).Bounded maxBytes →
      patch.Sheltered sure crash state dir [⟨stamp, key, value⟩]) :
    ((patch.segment dir maxBytes level).append key value).Weathers state crash
      (patch.AppendEnds sure dir maxBytes level key value state) := by
  have here := safe state (.refl _)
  unfold append
  split
  · rename_i large
    exact Program.weathers_pure here (.tooLarge large (.refl _))
  rename_i fits
  refine Program.weathers_bind_checked here fun width => ?_
  simp only [Patch.segment, Tile.segment] at width fits
  split
  · rename_i overfull
    have held : patch.tile.messages ≠ [] := by
      intro empty
      simp [Patch.segment, Tile.segment, Tile.bytes_eq_nil empty] at overfull
    exact Program.weathers_pure here (.full held (.refl _))
  rename_i room
  have bounded := bounded_extend_one state.world.stamp (Nat.le_of_not_lt fits) width room offsets
  have grown := length_bytes_extend_one patch.tile state.world.stamp key value
  have next : (patch.tile.extend [⟨state.world.stamp, key, value⟩]).nextOffset =
      patch.tile.nextOffset + 1 :=
    Tile.nextOffset_extend patch.tile _
  refine Program.weathers_bind_of_run (weathers_now safe) (run_now state.world)
    fun ticked _ _ quiet => ?_
  have tickedMount := mounted.quiet quiet
  have smallOne : Small [(⟨state.world.stamp, key, value⟩ : Message)] := by
    intro message member
    rw [List.mem_singleton.mp member]
    exact small
  have stores := weathers_store maxBytes careful tickedMount.disk tickedMount.legible
    tickedMount.indexes bound (atEnd (enters_of_room (Nat.le_of_not_lt fits) room)) smallOne
      (Nat.le_of_lt offsets) ((sheltered _ bounded).quiet quiet)
  simp only [numbered, positions, encodeAll_cons, encodeAll_nil, List.append_nil, Message.record,
    state.world.toNat_stamp] at stores
  refine Program.weathers_bind stores ?_
  rintro _ after safely ⟨rfl, stored⟩
  refine Program.weathers_bind_checked safely fun _ =>
    Program.weathers_bind_checked safely fun _ => ?_
  refine Program.weathers_pure safely ?_
  have ended : patch.AppendEnds sure dir maxBytes level key value state _ after :=
    .stored state.world.stamp bounded (stored.of_quiet quiet)
  simp only [Patch.segment, Patch.extend, Tile.segment, Record.length_encode] at ended ⊢
  rw [grown, next] at ended
  exact ended

/-- The loop of `append_batch` does not look at the index. -/
private theorem fill_indexed (patch : Patch) (timestampMs : Nat) (payloads : List Bytes)
    (batch : Batch) : (patch.segment dir maxBytes level).fill timestampMs payloads batch =
      (patch.tile.segment dir maxBytes level).fill timestampMs payloads batch := by
  induction payloads generalizing batch with
  | nil => rfl
  | cons payload rest ih =>
    simp only [fill, ih]
    rfl

private theorem reading_fill (self : Segment) (path : Path) (timestampMs : Nat)
    (payloads : List Bytes) (batch : Batch) :
    (self.fill timestampMs payloads batch).Reading path fun _ => True := by
  induction payloads generalizing batch with
  | nil => exact trivial
  | cons payload rest ih =>
    unfold fill
    split
    · exact trivial
    refine Program.Reading.bind (reading_checked _ _) fun _ _ => ?_
    split
    · split <;> exact trivial
    · exact Program.Reading.bind (reading_checked _ _) fun _ _ =>
        Program.Reading.bind (reading_checked _ _) fun _ _ => ih _

/-- `Segment::append_batch`. -/
theorem weathers_appendBatch (careful : lossy → level ≠ .none)
    (mounted : patch.Mounted sure state dir maxBytes)
    (bound : ∀ offset, sure offset → offset < patch.tile.nextOffset) (payloads : List Bytes)
    (atEnd : Begins maxBytes patch.tile.bytes.length payloads → patch.tile.AtEnd)
    (nonempty : payloads ≠ []) (small : ∀ payload ∈ payloads, 28 + payload.length < 2 ^ 32)
    (safe : ∀ middle, state.Quiet middle → middle.Safe crash)
    (sheltered : ∀ stamp taken rest, payloads = taken ++ rest →
      (patch.tile.extend (stamped stamp taken)).Bounded maxBytes →
      patch.Sheltered sure crash state dir (stamped stamp taken)) :
    ((patch.segment dir maxBytes level).appendBatch payloads).Weathers state crash
      (patch.BatchEnds sure dir maxBytes level payloads state) := by
  have filled (world : World) :
      ((patch.tile.segment dir maxBytes level).fill state.world.stamp.toNat payloads ⟨[], [],
        patch.tile.bytes.length, patch.tile.nextOffset, 0⟩).Ensures world _ _ :=
    fill_start_ensures mounted.bounded state.world.stamp payloads
  rw [state.world.toNat_stamp] at filled
  unfold appendBatch
  rw [if_neg nonempty]
  refine Program.weathers_bind_of_run (weathers_now safe) (run_now state.world)
    fun ticked _ _ ticks => ?_
  refine Program.weathers_bind
    ((reading_fill _ dir _ _ _).weathers (fun middle quiet => safe _ (ticks.trans quiet))
      fun answer after quiet _ ran => And.intro (ticks.trans quiet) ran) ?_
  rintro answer ready safely ⟨quiet, ran⟩
  have readyMount := mounted.quiet quiet
  rw [fill_indexed] at ran
  obtain ⟨-, ended⟩ := (filled ticked.world).of_run ran
  cases ended with
  | tooLarge payload behind shape large =>
    exact Program.weathers_pure safely (.tooLarge ⟨payload, by rw [shape]; simp, large⟩ quiet)
  | full held started nothing admitted => exact Program.weathers_pure safely (.full held quiet)
  | filled taken rest shape progress bounded most admitted =>
    simp only [List.nil_append] at bounded progress ⊢
    have takes : taken ≠ [] := fun empty => nonempty (progress empty)
    have start : (patch.tile.extend (stamped state.world.stamp [])).bytes.length =
        patch.tile.bytes.length := by
      simp [Tile.bytes_extend, stamped, numbered]
    have begins := begins_of_leading shape takes (start ▸ most) admitted
    have writes : (Batch.holding patch.tile state.world.stamp taken).buf ≠ [] := by
      refine List.length_pos_iff.mp (encodeAll_length_pos fun empty => takes ?_)
      simpa using congrArg List.length empty
    have content : (stamped state.world.stamp taken).map Message.content = batchContent taken :=
      stamped_content state.world.stamp taken
    have offsets := bounded.offsets
    rw [Tile.nextOffset_extend] at offsets
    rw [if_neg writes]
    refine Program.weathers_bind (weathers_store maxBytes careful readyMount.disk readyMount.legible
      readyMount.indexes bound (atEnd begins) (small_of_batch (fun payload member => ?_) content)
        (Nat.le_of_lt offsets)
      ((sheltered _ taken rest shape bounded).quiet quiet)) ?_
    · exact small payload (by rw [shape]; exact List.mem_append_left _ member)
    rintro _ after safely ⟨rfl, stored⟩
    refine Program.weathers_bind_checked safely fun _ => Program.weathers_pure safely ?_
    have ended : patch.BatchEnds sure dir maxBytes level payloads state _ after :=
      .stored state.world.stamp taken rest shape takes bounded (stored.of_quiet quiet)
    simp only [Patch.segment, Patch.extend, Tile.segment, Tile.bytes_extend,
      List.length_append] at ended ⊢
    exact ended

/-- `Segment::create`: no file, only the log, or both. -/
theorem weathers_create (baseOffset maxBytes : Nat) (level : SyncLevel)
    (present : state.world.HasDirectory dir)
    (freeLog : state.world.node (logPath dir baseOffset) = none)
    (freeIndex : state.world.node (indexPath dir baseOffset) = none) (width : baseOffset < 2 ^ 64)
    (before : ∀ middle, state.Quiet middle → middle.Safe crash)
    (made : ∀ middle, (Tile.fresh baseOffset).Touched sure dir state middle → middle.Safe crash) :
    (create dir baseOffset maxBytes level).Weathers state crash fun reply after =>
      reply = .ok ((Patch.fresh baseOffset).segment dir maxBytes level) ∧
        OnlyAt dir baseOffset state after ∧
        (Patch.fresh baseOffset).Mounted sure after dir maxBytes := by
  obtain ⟨opened, indexed⟩ := run_create_files baseOffset present freeLog freeIndex
  have apart := logPath_ne_indexPath dir baseOffset baseOffset
  have parent : state.world.isDirectory dir = true := present.isDirectory
  have empty : (Tile.fresh baseOffset).LogLeft [] := ⟨[], rfl, rfl⟩
  unfold create
  refine Program.weathers_bind_of_run (weathers_createDirAll present before)
    (run_createDirAll_present present) ?_
  intro started _ startedDisk quiet
  have logMade {middle : Cached lossy}
      (turns : Turns (logPath dir baseOffset) (· = []) started middle) :
      (Tile.fresh baseOffset).Touched sure dir state middle := by
    have absent : middle.world.node (indexPath dir baseOffset) = none := by
      rw [(turns.others _ apart.symm).node, startedDisk, freeIndex]
    refine ⟨(OnlyAt.of_quiet quiet _ _).trans (.of_log turns), turns.file, fun data held => ?_, ?_,
      fun there => ?_⟩
    · rw [turns.may data held]
      exact empty
    · rw [show (Tile.fresh baseOffset).baseOffset = baseOffset from rfl, absent]
      simp
    · exact absurd absent (file?_ne_none.mp there).1
  rw [← startedDisk] at opened freeLog parent
  refine Program.weathers_bind_of_run (File.weathers_create freeLog (logPath_ne_nil dir _) _ rfl
    (by simpa [logPath] using parent) (fun middle later => before _ (quiet.trans later))
    fun middle turns => made _ (logMade turns)) opened ?_
  intro logged _ loggedDisk logTurns
  have touched := logMade logTurns
  have both {middle : Cached lossy}
      (turns : Turns (indexPath dir baseOffset) (· = []) logged middle) :
      (Tile.fresh baseOffset).Touched sure dir state middle :=
    touched.turn_index ⟨turns.file,
      fun data held => .inr (.inl (turns.may data held)), turns.others⟩
  have free : logged.world.node (indexPath dir baseOffset) = none := by
    rw [(logTurns.others _ apart.symm).node, startedDisk, freeIndex]
  have parentLater : logged.world.isDirectory (indexPath dir baseOffset).dropLast = true := by
    rw [loggedDisk]
    simpa [indexPath] using (World.isDirectory_put_ne started.world []
      (by simp [logPath])).trans parent
  rw [startedDisk] at loggedDisk
  rw [← loggedDisk] at indexed
  refine Program.weathers_bind_of_run
    (Index.weathers_create (File.weathers_create free (indexPath_ne_nil dir _) _ rfl parentLater
      (fun middle quiet => made _ (touched.quiet quiet)) fun middle turns => made _ (both turns)))
    (Program.run_bind_of_run indexed _) ?_
  intro after safely disk turns
  refine Program.weathers_pure safely ⟨rfl, (both turns).others, ⟨?_, ?_⟩, (both turns).legible,
    ⟨List.Sublist.refl _, ?_⟩, ?_⟩
  · rw [disk]
    exact (Tile.onDisk_lay state.world dir (Tile.fresh baseOffset)).log
  · rw [disk]
    exact (Tile.onDisk_lay state.world dir (Tile.fresh baseOffset)).index
  · exact fun _ member => absurd member List.not_mem_nil
  · exact ⟨Nat.zero_le _, Nat.two_pow_pos 64, width⟩

/-- An index file that is missing, torn, or a list of entries. -/
def IndexFound (world : World) (path : Path) : Prop :=
  world.node path = none ∨ ∃ data, world.file? path = some data ∧
    (data.length % 16 ≠ 0 ∨ ∃ entries, data = encodeEntries entries ∧ ∀ entry ∈ entries, entry.Fits)

/-- The index of a segment being loaded is used as it is or emptied. -/
theorem weathers_loadIndex (below : path ≠ [])
    (parent : state.world.isDirectory path.dropLast = true) (found : IndexFound state.world path)
    (within : state.world.file? path ≠ none → ∀ data, state.may path data → allowed data)
    (empty : allowed []) (before : ∀ middle, state.Quiet middle → middle.Safe crash)
    (safe : ∀ middle, Turns path allowed state middle → middle.Safe crash) :
    (loadIndex path).Weathers state crash fun _ after => Turns path allowed state after := by
  have emptied {middle : Cached lossy} (turns : Turns path (· = []) state middle) :
      Turns path allowed state middle := by
    refine ⟨turns.file, fun data held => ?_, turns.others⟩
    rw [turns.may data held]
    exact empty
  rcases found with absent | ⟨data, held, torn | ⟨entries, rfl, fits⟩⟩
  · obtain ⟨error, failed⟩ :=
      Index.run_load_missing (show state.world.file? path = none by simp [World.file?, absent])
    refine Program.weathers_bind_of_run (Index.weathers_load path before) failed
      fun first _ disk quiet => ?_
    rw [← disk] at absent parent
    refine (Index.weathers_create (File.weathers_create absent below _ rfl parent
      (fun middle later => before _ (quiet.trans later)) fun middle turns =>
        safe _ (emptied (turns.of_quiet quiet)))).mono fun _ _ _ turns =>
          emptied (turns.of_quiet quiet)
  · have there : state.world.file? path ≠ none := Option.ne_none_iff_exists'.mpr ⟨data, held⟩
    refine Program.weathers_bind_of_run (Index.weathers_load path before)
      (Index.run_load_torn held below torn) fun first _ disk quiet => ?_
    rw [← disk] at held
    exact (Index.weathers_create (File.weathers_truncate held below _ rfl
      (fun found possible => within there found ((quiet path).may found possible)) empty
      (fun middle later => before _ (quiet.trans later)) fun middle turns =>
        safe _ (turns.of_quiet quiet))).mono fun _ _ _ turns => turns.of_quiet quiet
  · have there : state.world.file? path ≠ none := Option.ne_none_iff_exists'.mpr ⟨_, held⟩
    refine Program.weathers_bind_of_run (Index.weathers_load path before)
      (Index.run_load entries held below fits) fun first safely _ quiet => ?_
    exact Program.weathers_pure safely (quiet.turns there (within there))

/-- The recovery loop; with `rebuildIndex` it writes the index on its way. -/
theorem weathers_recover (rebuildIndex : Bool) (messages : List Message) (small : Small messages)
    (width : offset + messages.length < 2 ^ 64) (torn : Record.decode tail = some (.ok none, tail))
    (held : state.world.file? path = some (encodeEntries old)) (validBytes fuel : Nat)
    (enough : messages.length ≤ fuel) (within : ∀ data, state.may path data → allowed data)
    (parts : rebuildIndex = true → ∀ count, allowed ((encodeEntries
      (old ++ positions validBytes (numbered offset messages))).take (16 * old.length + count)))
    (safe : ∀ middle, Turns path allowed state middle → middle.Safe crash) :
    (recover rebuildIndex fuel (encodeAll (numbered offset messages) ++ tail) offset validBytes
        (Index.holding path old)).Weathers state crash fun _ after =>
          Turns path allowed state after := by
  have here : Turns path allowed state state :=
    (Quiet.refl state).turns (Option.ne_none_iff_exists'.mpr ⟨_, held⟩) within
  induction messages generalizing offset validBytes old state fuel with
  | nil =>
    cases fuel with
    | zero => exact Program.weathers_pure (safe _ here) here
    | succ fuel =>
      rw [recover]
      exact Program.weathers_bind_orPanic torn (Program.weathers_pure (safe _ here) here)
  | cons message rest ih =>
    obtain ⟨fuel, rfl⟩ : ∃ less, fuel = less + 1 :=
      ⟨fuel - 1, by rw [List.length_cons] at enough; omega⟩
    rw [List.length_cons] at width enough
    have fits : (message.record offset).Fits :=
      Message.fits_record (small message (by simp)) (by omega)
    have smallRest : Small rest := fun other member => small other (by simp [member])
    have consumed : ((message.record offset).encode ++
        (encodeAll (numbered (offset + 1) rest) ++ tail)).length -
          (encodeAll (numbered (offset + 1) rest) ++ tail).length =
            (message.record offset).encode.length := by
      rw [List.length_append]
      omega
    rw [numbered, encodeAll_cons, List.append_assoc, recover]
    refine Program.weathers_bind_orPanic (Record.decode_encode fits _) ?_
    simp only [consumed]
    cases rebuildIndex with
    | false =>
      simp only [Bool.false_eq_true, ↓reduceIte]
      exact Program.weathers_bind_checked (safe _ here) fun _ =>
        ih smallRest (by omega) held _ fuel (by omega) within (by simp) safe here
    | true =>
      have parts := parts rfl
      rw [numbered, positions] at parts
      simp only [↓reduceIte]
      refine Program.weathers_bind_of_run (weathers_index_append held _ _ within
        (fun count => take_first_entry old _ _ count ▸ parts _) safe) (Index.run_append held _ _)
        fun first safely disk turns => Program.weathers_bind_checked safely fun _ => ?_
      have there : first.world.file? path =
          some (encodeEntries (old ++ [⟨offset, validBytes⟩])) := by
        rw [disk]
        exact World.file?_put _ _ _
      exact (ih smallRest (by omega) there _ fuel (by omega) turns.may
        (fun _ count => take_later_entries old _ _ count ▸ parts _)
          (fun middle later => safe _ (turns.trans later))
        ((Quiet.refl first).turns turns.file turns.may)).mono fun _ _ _ later => turns.trans later

/-- What loading its index makes of a tile: `old` are the entries in the file. -/
structure IndexLoaded (sure : Nat → Prop) (world : World) (dir : Path) (tile : Tile)
    (old : List IndexEntry) : Prop where
  found : IndexFound world (indexPath dir tile.baseOffset)
  ran : (loadIndex (indexPath dir tile.baseOffset)).run world =
    (.ok (.ok (Index.holding (indexPath dir tile.baseOffset) old)),
      world.put (indexPath dir tile.baseOffset) (encodeEntries old))
  indexes : tile.Indexes sure (recoveredEntries tile old)
  source : old = [] ∧ LostIndex world (indexPath dir tile.baseOffset) ∨
    old ≠ [] ∧ world.file? (indexPath dir tile.baseOffset) = some (encodeEntries old)

private theorem exists_indexLoaded (legible : tile.Legible sure state dir)
    (bounded : tile.Bounded maxBytes) (directory : state.world.isDirectory dir = true) :
    ∃ old, IndexLoaded sure state.world dir tile old := by
  have below := indexPath_ne_nil dir tile.baseOffset
  have parent : state.world.isDirectory (indexPath dir tile.baseOffset).dropLast = true := by
    simpa [indexPath] using directory
  have all : tile.Indexes sure (recoveredEntries tile []) :=
    ⟨List.Sublist.refl _, fun _ member _ => member⟩
  have nothing (found : IndexFound state.world (indexPath dir tile.baseOffset))
      (lost : LostIndex state.world (indexPath dir tile.baseOffset)) :
      IndexLoaded sure state.world dir tile [] :=
    ⟨found, run_loadIndex_lost lost below parent, all, .inl ⟨rfl, lost⟩⟩
  cases held : state.world.file? (indexPath dir tile.baseOffset) with
  | none =>
    have absent := (World.node_of_no_file held).resolve_right legible.index
    exact ⟨[], nothing (.inl absent) (.missing absent)⟩
  | some data =>
    rcases legible.indexes (by rw [held]; simp) data
      (state.current _ _ held) with torn | rfl | ⟨known, rfl, indexes⟩
    · exact ⟨[], nothing (.inr ⟨data, held, .inl torn⟩) (.torn held torn)⟩
    · exact ⟨[], nothing (.inr ⟨[], held, .inr ⟨[], rfl, by simp⟩⟩) (.empty held)⟩
    · have fits : ∀ entry ∈ known, entry.Fits := fun entry member =>
        fits_entries bounded entry (indexes.sub.subset member)
      by_cases empty : known = []
      · subst empty
        exact ⟨[], nothing (.inr ⟨[], held, .inr ⟨[], rfl, by simp⟩⟩) (.empty held)⟩
      refine ⟨known, .inr ⟨_, held, .inr ⟨known, rfl, fits⟩⟩, ?_, ?_, .inr ⟨empty, held⟩⟩
      · unfold loadIndex
        rw [Program.run_bind_of_run (Index.run_load known held below fits), World.put_held held]
        rfl
      · rw [recoveredEntries, if_neg empty]
        exact indexes

private theorem IndexLoaded.indexedFrom {world : World}
    (loaded : IndexLoaded sure world dir tile old) :
    Patch.IndexedFrom world dir
      ⟨tile.reopened, recoveredEntries tile old, loaded.indexes.sub⟩ := by
  rcases loaded.source with ⟨rfl, lost⟩ | ⟨nonempty, held⟩
  · exact .inl ⟨lost, rfl⟩
  · refine .inr ?_
    simp only [recoveredEntries, if_neg nonempty]
    exact ⟨nonempty, held⟩

section Load
variable {fewer : Nat → Prop}

private theorem weathers_reading {program : Program α} {given : α → Prop}
    (reading : program.Reading path given) (touched : tile.Touched fewer dir state middle)
    (safe : ∀ middle, tile.Touched fewer dir state middle → middle.Safe crash) :
    program.Weathers middle crash fun _ after => tile.Touched fewer dir state after :=
  reading.weathers (fun _ quiet => safe _ (touched.quiet quiet)) fun _ _ quiet _ _ =>
    touched.quiet quiet

/-- The log is cut to its whole records. -/
private theorem weathers_trim {file : File} (place : file.path = logPath dir tile.baseOffset)
    (held : middle.world.file? (logPath dir tile.baseOffset) = some (tile.bytes ++ tail))
    (touched : tile.Touched fewer dir state middle)
    (safe : ∀ middle, tile.Touched fewer dir state middle → middle.Safe crash) :
    ((if tile.bytes.length < (tile.bytes ++ tail).length then file.setLen tile.bytes.length
      else pure (.ok ())) : Program (Except IoError Unit)).Weathers middle crash
      fun _ after => tile.Touched fewer dir state after := by
  split
  · rename_i longer
    refine (File.weathers_setLen held place (Nat.le_of_lt longer) touched.legible.logs ?_
      (fun _ quiet => safe _ (touched.quiet quiet)) fun _ turns =>
        safe _ (touched.turn_log turns)).mono fun _ _ _ turns => touched.turn_log turns
    rw [List.take_left]
    exact tile.logLeft_bytes
  · exact Program.weathers_pure (safe _ touched) touched

/-- While the index is rebuilt from the log it holds the entries of the first records. -/
private theorem weathers_recovery (small : Small tile.messages) (bounded : tile.Bounded maxBytes)
    (torn : Record.decode tail = some (.ok none, tail))
    (held : middle.world.file? (indexPath dir tile.baseOffset) = some (encodeEntries old))
    (rebuilds : old = [] → ∀ entry ∈ tile.entries, ¬ fewer entry.offset)
    (touched : tile.Touched fewer dir state middle)
    (safe : ∀ middle, tile.Touched fewer dir state middle → middle.Safe crash) :
    (recover ((Index.holding (indexPath dir tile.baseOffset) old).entryCount = 0 &&
      (tile.bytes ++ tail).length > 0) (tile.bytes ++ tail).length (tile.bytes ++ tail)
        tile.baseOffset 0 (Index.holding (indexPath dir tile.baseOffset) old)).Weathers middle crash
      fun _ after => tile.Touched fewer dir state after := by
  refine (weathers_recover _ tile.messages small bounded.offsets torn held 0 _
    (length_messages_le tile tail)
    (touched.legible.indexes (Option.ne_none_iff_exists'.mpr ⟨_, held⟩))
    (fun rebuilt count => ?_) fun _ turns => safe _ (touched.turn_index turns)).mono
    fun _ _ _ turns => touched.turn_index turns
  obtain rfl : old = [] := by
    simpa [Index.holding, Index.entryCount] using (Bool.and_eq_true_iff.mp rebuilt).1
  have part := Tile.indexLeft_rebuilt (rebuilds rfl) count
  rw [List.nil_append, List.length_nil, Nat.mul_zero, Nat.zero_add]
  exact part

private theorem weathers_load (maxBytes : Nat) (level : SyncLevel)
    (loaded : IndexLoaded sure state.world dir tile old)
    (found : state.world.file? (logPath dir tile.baseOffset) = some (tile.bytes ++ tail))
    (torn : Record.decode tail = some (.ok none, tail)) (bounded : tile.Bounded maxBytes)
    (small : Small tile.messages) (directory : state.world.isDirectory dir = true)
    (rebuilds : old = [] → ∀ entry ∈ tile.entries, ¬ fewer entry.offset)
    (legible : tile.Legible fewer state dir)
    (safe : ∀ middle, tile.Touched fewer dir state middle → middle.Safe crash) :
    (load dir tile.baseOffset maxBytes level).Weathers state crash fun _ after =>
      tile.Touched fewer dir state after := by
  have apart := logPath_ne_indexPath dir tile.baseOffset tile.baseOffset
  have start : tile.Touched fewer dir state state := ⟨.of_quiet (.refl _) _ _, legible⟩
  unfold load
  refine Program.weathers_bind_of_run
    (File.weathers_openWith _ fun middle quiet => safe _ (start.quiet quiet))
    (File.run_openWith_existing found (logPath_ne_nil dir _) _) fun opened _ openedDisk quiet => ?_
  have touched := start.quiet quiet
  simp only [Bool.false_eq_true, ↓reduceIte] at openedDisk ⊢
  rw [← openedDisk] at loaded found directory
  refine Program.weathers_bind_of_run (weathers_loadIndex (indexPath_ne_nil dir _)
    (by simpa [indexPath] using directory) loaded.found touched.legible.indexes (.inr (.inl rfl))
    (fun middle quiet => safe _ (touched.quiet quiet)) fun middle turns =>
      safe _ (touched.turn_index turns)) loaded.ran fun indexed _ indexedDisk turns => ?_
  have touched := touched.turn_index turns
  have logHeld : indexed.world.file? (logPath dir tile.baseOffset) = some (tile.bytes ++ tail) := by
    rw [indexedDisk, World.file?_put_ne _ _ apart, found]
  have indexHeld :
      indexed.world.file? (indexPath dir tile.baseOffset) = some (encodeEntries old) := by
    rw [indexedDisk, World.file?_put]
  have length (file : File) : file.len.Reading file.path fun _ => True := ⟨rfl, fun _ => trivial⟩
  refine Program.weathers_bind_of_run (weathers_reading (length _) touched safe)
    (File.run_len logHeld rfl) fun measured _ measuredDisk touched => ?_
  rw [← measuredDisk] at logHeld indexHeld
  refine Program.weathers_bind_of_run (weathers_reading (File.reads_readToEnd _) touched safe)
    (File.run_readToEnd logHeld rfl) fun scanned _ scannedDisk touched => ?_
  rw [← scannedDisk] at logHeld indexHeld
  simp only [File.seekStart, List.drop_zero]
  refine Program.weathers_bind_of_run
    (weathers_recovery small bounded torn indexHeld rebuilds touched safe)
    (run_recover _ tile.messages small bounded.offsets torn old indexHeld 0 _
      (length_messages_le tile tail)) fun recovered _ recoveredDisk touched => ?_
  have logKept : recovered.world.file? (logPath dir tile.baseOffset) =
      some (tile.bytes ++ tail) := by
    rw [recoveredDisk, World.file?_put_ne _ _ apart, logHeld]
  simp only [Nat.zero_add]
  refine Program.weathers_bind (weathers_trim rfl logKept touched safe)
    fun reply trimmed _ touched => ?_
  cases reply with
  | error error => exact Program.weathers_pure (safe _ touched) touched
  | ok done =>
    have ending (file : File) : file.seekEnd.Reading file.path fun _ => True :=
      ⟨rfl, fun _ => trivial⟩
    refine Program.weathers_bind (weathers_reading (ending _) touched safe)
      fun reply after _ touched => ?_
    cases reply <;> exact Program.weathers_pure (safe _ touched) touched

/-- `Segment::load` on the files of a legible tile: while it rebuilds the index,
the records of the tile are not sure. -/
theorem completes_load (maxBytes : Nat) (level : SyncLevel) (legible : tile.Legible sure state dir)
    (bounded : tile.Bounded maxBytes) (small : Small tile.messages)
    (directory : state.world.isDirectory dir = true)
    (implies : ∀ entry ∈ tile.entries, fewer entry.offset → sure entry.offset)
    (rebuilds : LostIndex state.world (indexPath dir tile.baseOffset) →
      ∀ entry ∈ tile.entries, ¬ fewer entry.offset)
    (safe : ∀ middle, tile.Touched fewer dir state middle → middle.Safe crash) :
    (load dir tile.baseOffset maxBytes level).Completes state crash fun reply after =>
      ∃ patch : Patch, reply = .ok (patch.segment dir maxBytes level) ∧ patch.tile = tile.reopened ∧
        patch.tile.Indexes sure patch.known ∧ patch.IndexedFrom state.world dir ∧
        patch.OnDisk after.world dir ∧ tile.Touched fewer dir state after := by
  have apart := logPath_ne_indexPath dir tile.baseOffset tile.baseOffset
  obtain ⟨buf, found⟩ := Option.ne_none_iff_exists'.mp legible.log
  obtain ⟨tail, rfl, torn⟩ := legible.logs buf (state.current _ _ found)
  obtain ⟨old, loaded⟩ := exists_indexLoaded legible bounded directory
  have ran := run_load_from maxBytes level small bounded.offsets torn old found loaded.ran
    ((World.file?_put_ne _ _ apart).trans found) (World.file?_put _ _ _)
  have weathers := weathers_load maxBytes level loaded found torn bounded small directory
    (fun empty => rebuilds (loaded.source.elim And.right fun kept => absurd empty kept.1))
    (legible.of_imp implies) safe
  refine ((weathers.with_run ran).mono ?_).completes ran
  rintro _ after - ⟨rfl, disk, touched⟩
  refine ⟨⟨tile.reopened, recoveredEntries tile old, loaded.indexes.sub⟩, rfl, rfl,
    ⟨loaded.indexes.sub, loaded.indexes.kept⟩, loaded.indexedFrom, ⟨?_, ?_⟩, touched⟩
  · rw [disk]
    exact World.file?_put _ _ _
  · rw [disk]
    exact (World.file?_put_ne _ _ apart.symm).trans (World.file?_put _ _ _)

end Load

end Segment

end Ruka
