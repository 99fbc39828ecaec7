import Ruka.PartitionSessions

/-! Within one process lifetime a partition is an append-only list, and its
segments, files and counters agree with each other after every call. -/
namespace Ruka
open BigEndian LexicalPaths FilePrograms TiledBlocks

/-- A segment agrees with the two files it is made of. -/
structure Segment.Agrees (world : World) (dir : Path) (maxBytes : Nat) (segment : Segment)
    (records : List Record) : Prop where
  offsets : records.map Record.offset =
    List.range' segment.baseOffset (segment.nextOffset - segment.baseOffset)
  log : world.file? (logPath dir segment.baseOffset) = some (encodeAll records)
  size : segment.currentSize = (encodeAll records).length
  limit : segment.currentSize ≤ maxBytes
  index : segment.index.entries = positions 0 records
  indexFile : (Index.load (indexPath dir segment.baseOffset)).run world =
    (.ok (.ok segment.index), world)

/-- The representation invariant of a partition. -/
structure Partition.WellFormed (world : World) (partition : Partition) : Prop where
  nonempty : partition.segments ≠ []
  increasing : partition.segments.Pairwise fun a b => a.baseOffset < b.baseOffset
  chained : partition.segments.IsChain fun a b => a.nextOffset = b.baseOffset
  onlyLastEmpty : ∀ segment ∈ partition.segments.dropLast, segment.baseOffset < segment.nextOffset
  agrees : ∀ segment ∈ partition.segments,
    ∃ records, segment.Agrees world partition.baseDir partition.maxSegmentBytes records

theorem map_offset_numbered (offset : Nat) (messages : List Message) :
    (numbered offset messages).map Record.offset = List.range' offset messages.length := by
  induction messages generalizing offset with
  | nil => rfl
  | cons message rest ih => simp [numbered, ih, List.range'_succ, Message.record]

private theorem Tile.agrees {world : World} {dir : Path} {tile : Tile} (syncLevel : SyncLevel)
    (disk : tile.OnDisk world dir) (bounded : tile.Bounded maxBytes) :
    (tile.segment dir maxBytes syncLevel).Agrees world dir maxBytes tile.records where
  offsets := by
    rw [show (tile.segment dir maxBytes syncLevel).nextOffset =
      tile.baseOffset + tile.messages.length from rfl,
      show (tile.segment dir maxBytes syncLevel).baseOffset = tile.baseOffset from rfl,
      Nat.add_sub_cancel_left]
    exact map_offset_numbered _ _
  log := disk.log
  size := rfl
  limit := bounded.size
  index := rfl
  indexFile := Index.run_load tile.entries disk.index (indexPath_ne_nil dir _)
    (Segment.fits_entries bounded)

/-- A layout makes a partition well formed. -/
theorem Layout.wellFormed {world : World} {tiles : List Tile} (partition : Partition)
    (layout : Layout world partition.baseDir partition.maxSegmentBytes tiles) :
    (partition.withTiles tiles).WellFormed world where
  nonempty := by
    simpa [Partition.withBlocks] using layout.tiled.nonempty
  increasing := List.pairwise_map.mpr layout.tiled.sorted
  chained := by
    refine (List.isChain_map _).mpr (List.isChain_iff_forall_rel_of_append_cons_cons.mpr
      fun a b front back shape => ?_)
    have tiled := layout.tiled
    rw [shape] at tiled
    exact tiled.next_base.symm
  onlyLastEmpty := by
    intro segment member
    simp only [Partition.withBlocks, ← List.map_dropLast] at member
    obtain ⟨tile, found, rfl⟩ := List.mem_map.mp member
    have positive := List.length_pos_iff.mpr (layout.tiled.filled_of_mem_dropLast found)
    exact Nat.lt_add_of_pos_right positive
  agrees := by
    intro segment member
    obtain ⟨tile, found, rfl⟩ := List.mem_map.mp member
    exact ⟨tile.records, tile.agrees _ (layout.onDisk tile found) (layout.bounded tile found)⟩

/-- Whatever was appended, refused or read so far, the partition is well formed. -/
theorem session_well_formed {settings : Settings}
    (session : Session settings world partition history) : partition.WellFormed world := by
  obtain ⟨syncLevel, tiles, kept⟩ := session.kept
  rw [kept.shape]
  exact Layout.wellFormed (settings.frame syncLevel) kept.layout

/-- A session of three appends in segments of a hundred bytes. -/
private theorem session_three_appends : ∃ world partition history,
    Session ⟨"t", 0, [], 100⟩ world partition history ∧ history.map Prod.fst =
      [.append none (some [1]), .appendBatch [[2], [3]], .read 2] :=
  exists_session ⟨"t", 0, [], 100⟩ (by decide) _ (by decide) (by decide)

theorem session_well_formed_three_appends : ∃ world partition history,
    Session ⟨"t", 0, [], 100⟩ world partition history ∧
      history.map Prod.fst = [.append none (some [1]), .appendBatch [[2], [3]], .read 2] ∧
      partition.WellFormed world := by
  obtain ⟨world, partition, history, session, shape⟩ := session_three_appends
  exact ⟨world, partition, history, session, shape, session_well_formed session⟩

namespace Partition
variable {world : World} {partition : Partition} {tiles : List Tile}

theorem nextOffset_eq_length (filed : Filed world dir maxBytes tiles) :
    (partition.withTiles tiles).nextOffset = (logOf tiles).length := by
  obtain ⟨front, last, rfl⟩ : ∃ front last, tiles = front ++ [last] :=
    ⟨_, _, (List.dropLast_append_getLast filed.tiled.nonempty).symm⟩
  rw [nextOffset_withTiles, length_logOf]
  exact filed.nextOffset_eq

/-- Reading an offset gives the entry of the list at that place. -/
theorem run_read_logOf (filed : Filed world partition.baseDir partition.maxSegmentBytes tiles)
    (small : Small (contents tiles)) (offset : Nat) :
    ∃ found result,
      ((partition.withTiles tiles).read offset).run world = (.ok (.ok found, result), world) ∧
      found.map (fun record => (record.offset, record.key, record.value)) =
        (logOf tiles)[offset]?.map (fun content => (offset, content.1, content.2)) := by
  obtain ⟨others, -, ran⟩ := run_read filed small offset
  refine ⟨_, _, ran, ?_⟩
  rw [logOf, List.getElem?_map, Option.map_map, Option.map_map]
  rfl

end Partition

namespace Kept
variable {settings : Settings} {world : World} {partition : Partition} {tiles : List Tile}

theorem nextOffset_eq (kept : Kept settings restarts world partition history syncLevel tiles) :
    partition.nextOffset = (logOf tiles).length := by
  rw [kept.shape]
  exact Partition.nextOffset_eq_length kept.layout.toFiled

theorem run_read (kept : Kept settings restarts world partition history syncLevel tiles)
    (small : ∀ call ∈ history, call.1.Small) (offset : Nat) :
    ∃ found result, (partition.read offset).run world = (.ok (.ok found, result), world) ∧
      found.map (fun record => (record.offset, record.key, record.value)) =
        (logOf tiles)[offset]?.map (fun content => (offset, content.1, content.2)) := by
  have filed : Filed world (settings.frame syncLevel).baseDir
      (settings.frame syncLevel).maxSegmentBytes
    tiles := kept.layout.toFiled
  have reads := Partition.run_read_logOf filed (kept.small small) offset
  rwa [← kept.shape] at reads

end Kept

/-- A process lifetime is a run of an append-only list: the list explains every
answer given so far, its length is the next offset, reading any offset gives the
entry at that place, and the next call is answered in the same way unless it
carries a counter past its width. -/
theorem session_refines_append_only_list {settings : Settings}
    (session : Session settings world partition history) (small : ∀ call ∈ history, call.1.Small) :
    ∃ log, LogRun settings.maxSegmentBytes history log ∧ partition.nextOffset = log.length ∧
      (∀ offset, ∃ found result,
        (partition.read offset).run world = (.ok (.ok found, result), world) ∧
        found.map (fun record => (record.offset, record.key, record.value)) =
          log[offset]?.map (fun content => (offset, content.1, content.2))) ∧
      ∀ request, ¬ Segment.Overflows settings.maxSegmentBytes log.length request.count →
        ∃ answer result after grown,
          (partition.serve request).run world = (.ok (answer, result), after) ∧
          LogStep settings.maxSegmentBytes log request answer grown := by
  obtain ⟨syncLevel, tiles, kept⟩ := session.kept
  refine ⟨logOf tiles, kept.explained small, kept.nextOffset_eq, kept.run_read small,
    fun request fits => ?_⟩
  have ends := Partition.serve_ensures_alone (settings.frame syncLevel) kept.layout request
    (kept.atEnd (.inl not_false))
  rw [← kept.shape, ← length_logOf] at ends
  obtain ⟨⟨answer, result⟩, after, ran, others, served, -⟩ := ends.returns fun trap =>
    trap.elim (fun large => large (kept.small small)) fits
  exact ⟨answer, result, after, logOf others, ran, served.explained (kept.small small)⟩

theorem session_refines_append_only_list_three_appends : ∃ world partition history log,
    Session ⟨"t", 0, [], 100⟩ world partition history ∧
      history.map Prod.fst = [.append none (some [1]), .appendBatch [[2], [3]], .read 2] ∧
      LogRun 100 history log ∧ partition.nextOffset = log.length := by
  obtain ⟨world, partition, history, session, shape⟩ := session_three_appends
  have small : ∀ call ∈ history, call.1.Small := by
    intro call member
    have image := List.mem_map_of_mem (f := Prod.fst) member
    rw [shape] at image
    exact (by decide :
      ∀ request ∈ [Request.append none (some [1]), .appendBatch [[2], [3]], .read 2],
      request.Small) _ image
  obtain ⟨log, run, length, -⟩ := session_refines_append_only_list session small
  exact ⟨world, partition, history, log, session, shape, run, length⟩

end Ruka
