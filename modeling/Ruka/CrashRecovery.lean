import Ruka.FrayedOpening

/-! Recovery after a kill. `Segment::load` cuts a torn record off the log and
rebuilds an index that is missing, torn or empty. An index that stops at the end
of an entry looks complete, so the records behind it stay in the log, count for
the next offset, and cannot be found. -/
namespace Ruka
open BigEndian LexicalPaths FilePrograms FilePrograms.Cached DecimalNames TiledBlocks

/-- Every index file in the directory is torn inside an entry, empty, or has an
entry for each whole record of its log. -/
def IndexSound (world : World) (dir : Path) : Prop :=
  ∀ baseOffset log index, world.file? (logPath dir baseOffset) = some log →
    world.file? (indexPath dir baseOffset) = some index →
    index.length % 16 ≠ 0 ∨ index.length = 0 ∨ index.length = 16 * wholeRecords log.length log

namespace Patch

/-- A tile with a complete index. -/
def whole (tile : Tile) : Patch := ⟨tile, tile.entries, List.Sublist.refl _⟩

/-- An index that is not complete misses one of the records. -/
theorem exists_unknown {patch : Patch} (short : patch.known ≠ patch.tile.entries) :
    ∃ entry ∈ patch.tile.entries, ¬ patch.Knows entry.offset := by
  by_contra! all
  have distinct : (patch.tile.entries.map IndexEntry.offset).Nodup := List.pairwise_map.mpr
    ((positions_sorted 0 patch.tile.baseOffset patch.tile.messages).imp Nat.ne_of_lt)
  have within : patch.tile.entries.map IndexEntry.offset ⊆ patch.known.map IndexEntry.offset := by
    intro offset listed
    obtain ⟨entry, member, rfl⟩ := List.mem_map.mp listed
    obtain ⟨other, known, same⟩ := all entry member
    exact same ▸ List.mem_map_of_mem known
  have longer := (distinct.subperm within).length_le
  rw [List.length_map, List.length_map] at longer
  exact short (patch.sub.eq_of_length_le longer)

end Patch

/-- A partition whose records can all be found, and after a stop as well if that `lasts`. -/
def Ledger.full (log : List Content) (lasts : Prop) : Ledger where
  log := log
  found offset := offset < log.length
  sure offset := lasts ∧ offset < log.length
  sure_found _ held := held.2
  within _ held := held

variable {lossy : Prop} {world : World} {dir : Path} {maxBytes : Nat} {tiles : List Tile}
  {sure : Nat → Prop} {patches : List Patch} {log more : List Content}

private theorem Layout.running (layout : Layout world dir maxBytes tiles)
    (small : Small (contents tiles)) :
    Running (Ledger.full (logOf tiles) True) (settled lossy world) dir maxBytes
      (tiles.map Patch.whole) where
  frayed := by
    rw [List.map_map, show Patch.tile ∘ Patch.whole = id from rfl, List.map_id]
    refine ⟨layout.tiled, layout.bounded, small, layout.directory,
      fun tile member => ?_, layout.only⟩
    have disk := layout.onDisk tile member
    refine ⟨?_, fun data held => ?_, fun taken => ?_, fun _ data held => ?_⟩
    · exact Option.ne_none_iff_exists'.mpr ⟨_, disk.log⟩
    · obtain rfl : tile.bytes = data := Option.some.inj (disk.log.symm.trans held)
      exact tile.logLeft_bytes
    · exact (file?_ne_none.mp (Option.ne_none_iff_exists'.mpr ⟨_, disk.index⟩)).2 taken
    · obtain rfl : encodeEntries tile.entries = data := Option.some.inj (disk.index.symm.trans held)
      exact .inr (.inr ⟨_, rfl, List.Sublist.refl _, fun _ listed _ => listed⟩)
  log := by
    rw [List.map_map, show Patch.tile ∘ Patch.whole = id from rfl, List.map_id]
    rfl
  disk patch member := by
    obtain ⟨tile, found, rfl⟩ := List.mem_map.mp member
    have disk := layout.onDisk tile found
    exact ⟨disk.log, disk.index⟩
  found patch member := by
    obtain ⟨tile, -, rfl⟩ := List.mem_map.mp member
    exact ⟨List.Sublist.refl _, fun _ listed _ => listed⟩

/-- No index stops short exactly if each patch has a complete one once it is loaded. -/
theorem Frayed.indexSound_iff (frayed : Frayed sure (settled lossy world) dir maxBytes tiles)
    (loaded : patches.map Patch.tile = tiles.map Tile.reopened)
    (source : ∀ patch ∈ patches, patch.IndexedFrom world dir) :
    IndexSound world dir ↔ ∀ patch ∈ patches, patch.known = patch.tile.entries := by
  have counted {tile : Tile} (member : tile ∈ tiles) {log : Bytes}
      (held : world.file? (logPath dir tile.baseOffset) = some log) :
      wholeRecords log.length log = tile.entries.length := by
    obtain ⟨tail, rfl, torn⟩ := (frayed.legible tile member).logs log held
    exact Tile.wholeRecords_bytes (Filed.small_tile frayed.small member)
      (frayed.bounded tile member) torn
  constructor
  · intro sound patch member
    obtain ⟨tile, found, shape⟩ :=
      List.mem_map.mp (loaded ▸ List.mem_map_of_mem (f := Patch.tile) member)
    have sub := patch.sub
    rcases source patch member with ⟨-, whole⟩ | ⟨nonempty, index⟩
    · exact whole
    rw [← shape] at sub index ⊢
    obtain ⟨log, held⟩ := Option.ne_none_iff_exists'.mp (frayed.legible tile found).log
    have cases := sound _ _ _ held index
    have some := List.length_pos_iff.mpr nonempty
    rw [length_encodeEntries, counted found held] at cases
    exact sub.eq_of_length (show patch.known.length = tile.entries.length by omega)
  · intro whole baseOffset log index logHeld indexHeld
    obtain ⟨tile, member, named⟩ := frayed.only _ (World.node_ne_none logHeld)
    obtain rfl : baseOffset = tile.baseOffset := by
      rcases named with log | index
      · exact logName_injective log
      · exact absurd index (logName_ne_indexName _ _)
    obtain ⟨patch, found, shape⟩ :=
      List.mem_map.mp (loaded ▸ List.mem_map_of_mem (f := Tile.reopened) member)
    have base : patch.tile.baseOffset = tile.baseOffset := by rw [shape]; rfl
    have entries : patch.tile.entries = tile.entries := by rw [shape]; rfl
    rcases source patch found with ⟨lost, -⟩ | ⟨-, held⟩
    · rw [base] at lost
      cases lost with
      | missing absent => exact absurd absent (World.node_ne_none indexHeld)
      | empty held =>
        obtain rfl : [] = index := Option.some.inj (held.symm.trans indexHeld)
        exact .inr (.inl rfl)
      | torn held cut =>
        obtain rfl := Option.some.inj (held.symm.trans indexHeld)
        exact .inl cut
    · rw [base] at held
      obtain rfl := Option.some.inj (held.symm.trans indexHeld)
      rw [length_encodeEntries, whole patch found, entries, counted member logHeld]
      exact .inr (.inr rfl)

namespace Partition
variable {partition : Partition} {ledger : Ledger} {state : Cached lossy} {patch : Patch}

/-- With complete indexes every record is found. -/
theorem run_read_full
    (running : Running (Ledger.full log lasts) state partition.baseDir partition.maxSegmentBytes
      patches) (below : offset < log.length) :
    ∃ record result, ((partition.withPatches patches).read offset).run state.world =
        (.ok (.ok (some record), result), state.world) ∧
      record.offset = offset ∧ log[offset]? = some (record.key, record.value) := by
  obtain ⟨others, answer, -, ran, truthful, complete⟩ := run_read_patches running offset
  obtain ⟨record, rfl⟩ := Option.ne_none_iff_exists'.mp (complete below)
  exact ⟨record, _, ran, truthful record rfl⟩

/-- With an index that stops short one of them is not. -/
theorem exists_run_read_none
    (running : Running ledger state partition.baseDir partition.maxSegmentBytes patches)
    (member : patch ∈ patches) (short : patch.known ≠ patch.tile.entries) :
    ∃ offset < ledger.log.length, ((partition.withPatches patches).read offset).run state.world =
      (.ok (.ok none, partition.withPatches patches), state.world) := by
  obtain ⟨entry, listed, unknown⟩ := Patch.exists_unknown short
  have below := running.frayed.entry_lt (List.mem_map_of_mem member) listed
  rw [← length_logOf, running.log] at below
  refine ⟨entry.offset, below, ?_⟩
  obtain ⟨front, back, rfl⟩ := List.append_of_mem member
  have tiled := running.frayed.tiled
  have sorted := List.pairwise_map.mp tiled.sorted
  rw [List.map_append, List.map_cons] at tiled
  have bounds := offset_bounds_of_mem_positions listed
  refine run_read_withBlocks (locate_withBlocks sorted bounds.1 fun later found => ?_)
    (Segment.run_readAt_unknown _ _ _ unknown state.world)
  have apart := (List.pairwise_cons.mp tiled.from_block.apart).1 later.tile
    (List.mem_map_of_mem found)
  have bound : entry.offset < patch.tile.baseOffset + patch.tile.messages.length := by
    simpa [Tile.records] using bounds.2
  exact Nat.lt_of_lt_of_le bound apart

end Partition

/-- What opening such a directory gives: every offset can be read, or one of
them cannot. -/
theorem Recoverable.recover {settings : Settings}
    (recoverable : Recoverable lossy sure settings.dir settings.maxSegmentBytes log more world)
    (readDir : Path → List Name) (syncLevel : SyncLevel)
    (enumerates : Enumerates world settings.dir (readDir settings.dir)) :
    ∃ recovered after, (settings.openOrCreate readDir syncLevel).run world =
      (.ok (.ok recovered), after) ∧ log.length ≤ recovered.nextOffset ∧
      (IndexSound world settings.dir → ∀ offset < recovered.nextOffset, ∃ record result,
        (recovered.read offset).run after = (.ok (.ok (some record), result), after) ∧
        record.offset = offset ∧
          (log ++ more)[offset]? = some (record.key, record.value)) ∧
      (¬ IndexSound world settings.dir → ∃ offset < recovered.nextOffset,
        (recovered.read offset).run after = (.ok (.ok none, recovered), after)) := by
  obtain ⟨tiles, frayed, low, rest, high⟩ := recoverable
  have unsure : Frayed (Ledger.full (logOf tiles) False).sure (settled lossy world) settings.dir
      settings.maxSegmentBytes tiles := frayed.of_imp fun _ held => held.1.elim
  have completes := Settings.completes_openOrCreate_frayed readDir syncLevel unsure rfl enumerates
  obtain ⟨reply, after, ran⟩ := completes.returns
  obtain ⟨patches, rfl, running, loaded, source⟩ := completes.weathers.holds reply after ran
  have next : ((settings.frame syncLevel).withPatches patches).nextOffset = (logOf tiles).length :=
    Partition.nextOffset_running _ running
  have sound_iff := frayed.indexSound_iff loaded source
  obtain ⟨opened, disk⟩ :=
    Program.cached_run (settings.openOrCreate readDir syncLevel) (settled lossy world)
  rw [ran] at opened disk
  refine ⟨_, after.world, Prod.ext opened.symm disk.symm, next ▸ low.length_le,
    fun sound offset below => ?_, fun unsound => ?_⟩
  · have full : Running (Ledger.full (logOf tiles) False) after (settings.frame syncLevel).baseDir
        (settings.frame syncLevel).maxSegmentBytes patches := by
      refine ⟨running.frayed.of_imp fun _ held => held.1.elim, running.log, running.disk,
        fun patch member => ?_⟩
      rw [sound_iff.mp sound patch member]
      exact ⟨List.Sublist.refl _, fun _ listed _ => listed⟩
    rw [next] at below
    obtain ⟨record, result, found, place, held⟩ := Partition.run_read_full full below
    refine ⟨record, result, found, place, ?_⟩
    rw [← high, List.getElem?_append_left below]
    exact held
  · obtain ⟨patch, member, short⟩ : ∃ patch ∈ patches, patch.known ≠ patch.tile.entries := by
      by_contra! all
      exact unsound (sound_iff.mpr all)
    have held : Running _ after (settings.frame syncLevel).baseDir
        (settings.frame syncLevel).maxSegmentBytes patches :=
      running
    rw [next]
    exact Partition.exists_run_read_none held member short

private theorem Recoverable.exists_listing
    (recoverable : Recoverable lossy sure dir maxBytes log more world) :
    ∃ listing, Enumerates world dir listing := by
  obtain ⟨tiles, frayed, -⟩ := recoverable
  exact frayed.exists_listing

/-- What a kill inside the next call of a session leaves. -/
theorem Session.recoverable {settings : Settings}
    (session : Session settings world partition history)
    (smallHistory : ∀ call ∈ history, call.1.Small) (small : request.Small)
    (offsets : partition.nextOffset + request.count < 2 ^ 64) :
    ∃ log, LogRun settings.maxSegmentBytes history log ∧ ∀ calls bytes,
      Recoverable False (Ledger.full log True).sure settings.dir settings.maxSegmentBytes log
        request.contents ((partition.serve request).killed world calls bytes) := by
  obtain ⟨level, tiles, kept⟩ := session.kept
  rw [kept.nextOffset_eq] at offsets
  have running : Running (Ledger.full (logOf tiles) True) (settled False world)
      (settings.frame level).baseDir (settings.frame level).maxSegmentBytes
        (tiles.map Patch.whole) := kept.layout.running (kept.small smallHistory)
  have atEnd : ∀ last ∈ (tiles.map Patch.whole).getLast?, last.tile.AtEnd := by
    intro last active
    obtain ⟨tile, member, rfl⟩ := List.mem_map.mp (List.mem_of_getLast? active)
    exact .inl (kept.mode not_false tile member)
  have weathers :=
    Partition.weathers_serve False.elim running request
      (fun last active _ => atEnd last active) small offsets
  have shape : (settings.frame level).withPatches (tiles.map Patch.whole) = partition := by
    rw [kept.shape]
    simp only [Partition.withBlocks, List.map_map]
    rfl
  rw [shape] at weathers
  exact ⟨logOf tiles, kept.explained smallHistory, weathers.killed⟩

/-- A process killed anywhere inside a call, and the partition opened again:
every offset below the next one reads back as the record written there exactly
when no index file in the directory stops short at the end of an entry. -/
theorem recovered_offsets_readable_iff {settings : Settings}
    (session : Session settings world partition history)
    (smallHistory : ∀ call ∈ history, call.1.Small) (small : request.Small)
    (offsets : partition.nextOffset + request.count < 2 ^ 64) (calls bytes : Nat)
    (readDir : Path → List Name) (syncLevel : SyncLevel)
    (enumerates : Enumerates ((partition.serve request).killed world calls bytes) settings.dir
      (readDir settings.dir)) :
    ∃ log recovered after, LogRun settings.maxSegmentBytes history log ∧
      (settings.openOrCreate readDir syncLevel).run
        ((partition.serve request).killed world calls bytes) = (.ok (.ok recovered), after) ∧
      log.length ≤ recovered.nextOffset ∧
      ((∀ offset < recovered.nextOffset, ∃ record result,
        (recovered.read offset).run after = (.ok (.ok (some record), result), after) ∧
        record.offset = offset ∧
          (log ++ request.contents)[offset]? = some (record.key, record.value)) ↔
        IndexSound ((partition.serve request).killed world calls bytes) settings.dir) := by
  obtain ⟨log, run, leaves⟩ := session.recoverable smallHistory small offsets
  obtain ⟨recovered, after, opened, enough, readable, unreadable⟩ :=
    (leaves calls bytes).recover readDir syncLevel enumerates
  refine ⟨log, recovered, after, run, opened, enough, fun all => ?_, readable⟩
  refine Classical.byContradiction fun unsound => ?_
  obtain ⟨offset, below, missing⟩ := unreadable unsound
  obtain ⟨record, result, ran, -⟩ := all offset below
  rw [missing] at ran
  cases ran

/-- The next offset of a partition, and how many records and bytes of index the
kill of a batch of two leaves in its first segment. -/
private def leftByBatch (dir : Path) (calls bytes : Nat) :
    Except Halt (List (Request × Answer) × Partition) × World → Option (Nat × Nat × Nat)
  | (.ok ([], partition), world) => do
    let left := (partition.serve (.appendBatch [[1], [2]])).killed world calls bytes
    let log ← left.file? (logPath dir 0)
    let index ← left.file? (indexPath dir 0)
    some (partition.nextOffset, wholeRecords log.length log, index.length)
  | _ => none

/-- The log is written and so is the first of the two index entries. -/
private theorem leftByBatch_between_entries :
    leftByBatch (Settings.dir ⟨"t", 0, [], 1000⟩) 3 0
      ((Settings.openThen ⟨"t", 0, [], 1000⟩ (fun _ _ => true) [] []).run blankWorld) =
        some (0, 2, 16) := by
  decide +kernel

private theorem session_before_batch :
    ∃ world partition, Session ⟨"t", 0, [], 1000⟩ world partition [] ∧ partition.nextOffset = 0 ∧
    ¬ IndexSound ((partition.serve (.appendBatch [[1], [2]])).killed world 3 0)
      (Settings.dir ⟨"t", 0, [], 1000⟩) := by
  have found := leftByBatch_between_entries
  generalize ran : (Settings.openThen ⟨"t", 0, [], 1000⟩ (fun _ _ => true) [] []).run blankWorld =
    outcome at found
  obtain ⟨result, world⟩ := outcome
  cases result with
  | error reason => cases found
  | ok reply =>
    obtain ⟨calls, partition⟩ := reply
    obtain rfl : calls = [] := by
      cases calls with
      | nil => rfl
      | cons call rest => cases found
    simp only [leftByBatch, Option.bind_eq_bind, Option.bind_eq_some_iff, Option.some.injEq,
      Prod.mk.injEq] at found
    obtain ⟨log, logHeld, index, indexHeld, next, whole, length⟩ := found
    refine ⟨world, partition, Session.of_run ran, next, fun sound => ?_⟩
    have cases := sound 0 log index logHeld indexHeld
    omega

theorem recovered_offsets_readable_iff_torn_batch : ∃ world partition listing log recovered after,
    Session ⟨"t", 0, [], 1000⟩ world partition [] ∧ LogRun 1000 [] log ∧
      (Settings.openOrCreate ⟨"t", 0, [], 1000⟩ (fun _ => listing) .none).run
          ((partition.serve (.appendBatch [[1], [2]])).killed world 1 40) =
            (.ok (.ok recovered), after) ∧
      ((∀ offset < recovered.nextOffset, ∃ record result,
        (recovered.read offset).run after = (.ok (.ok (some record), result), after) ∧
        record.offset = offset ∧
          (log ++ batchContent [[1], [2]])[offset]? = some (record.key, record.value)) ↔
        IndexSound ((partition.serve (.appendBatch [[1], [2]])).killed world 1 40)
          (Settings.dir ⟨"t", 0, [], 1000⟩)) := by
  obtain ⟨world, partition, session, next, -⟩ := session_before_batch
  have offsets : partition.nextOffset + (Request.appendBatch [[1], [2]]).count < 2 ^ 64 := by
    rw [next]
    decide
  obtain ⟨_, -, leaves⟩ := session.recoverable (by simp) (by decide) offsets
  obtain ⟨listing, enumerates⟩ := (leaves 1 40).exists_listing
  obtain ⟨log, recovered, after, run, opened, -, readable⟩ :=
    recovered_offsets_readable_iff session (by simp) (by decide) offsets 1 40 (fun _ => listing)
      .none enumerates
  exact ⟨world, partition, listing, log, recovered, after, session, run, opened, readable⟩

/-- A batch of two killed between its two index entries: after recovery the
partition counts two records, and one of them is not found. -/
theorem recovered_offset_unreadable : ∃ world partition listing recovered after,
    Session ⟨"t", 0, [], 1000⟩ world partition [] ∧
      Enumerates ((partition.serve (.appendBatch [[1], [2]])).killed world 3 0)
        (Settings.dir ⟨"t", 0, [], 1000⟩) listing ∧
      (Settings.openOrCreate ⟨"t", 0, [], 1000⟩ (fun _ => listing) .none).run
          ((partition.serve (.appendBatch [[1], [2]])).killed world 3 0) =
            (.ok (.ok recovered), after) ∧
      ∃ offset < recovered.nextOffset,
        (recovered.read offset).run after = (.ok (.ok none, recovered), after) := by
  obtain ⟨world, partition, session, next, unsound⟩ := session_before_batch
  have offsets : partition.nextOffset + (Request.appendBatch [[1], [2]]).count < 2 ^ 64 := by
    rw [next]
    decide
  obtain ⟨log, run, leaves⟩ := session.recoverable (by simp) (by decide) offsets
  obtain ⟨listing, enumerates⟩ := (leaves 3 0).exists_listing
  obtain ⟨recovered, after, opened, -, -, unreadable⟩ :=
    (leaves 3 0).recover (fun _ => listing) .none enumerates
  exact ⟨world, partition, listing, recovered, after, session, enumerates, opened,
    unreadable unsound⟩

end Ruka
