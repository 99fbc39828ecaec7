import Ruka.AppendOnlyRefinement

/-! Batches that are refused. A batch is written one segment at a time, and a
payload that is too large is noticed when the loop for its segment comes to it:
what went to earlier segments stays in the log. -/
namespace Ruka
open BigEndian LexicalPaths FilePrograms TiledBlocks

/-- Every record that can be read before can be read after, and is the same. -/
def Partition.StillReads (world : World) (partition : Partition) (after : World)
    (result : Partition) : Prop :=
  ∀ offset record moved,
    (partition.read offset).run world = (.ok (.ok (some record), moved), world) →
    ∃ others, (result.read offset).run after = (.ok (.ok (some record), others), after)

private theorem Segment.lt_nextOffset_of_readAt {segment : Segment}
    (ran : (segment.readAt offset).run world = (.ok (.ok (some record), moved), after)) :
    offset < segment.nextOffset := by
  refine Decidable.byContradiction fun beyond => ?_
  rw [readAt, if_pos (.inr (Nat.le_of_not_lt beyond))] at ran
  cases ran

namespace Partition
variable {world after : World} {partition : Partition} {tiles spare : List Tile}

/-- Tiles behind those that are there take no record away. -/
theorem stillReads_behind (filed : Filed world partition.baseDir partition.maxSegmentBytes tiles)
    (later : Filed after partition.baseDir partition.maxSegmentBytes (tiles ++ spare)) :
    StillReads world (partition.withTiles tiles) after (partition.withTiles (tiles ++ spare)) := by
  intro offset record moved ran
  obtain ⟨front, tile, back, rfl, low, high⟩ := filed.tiled.exists_floor (Nat.zero_le offset)
  have segment (behind : List Tile) :
      (partition.withTiles (front ++ tile :: behind)).segments[front.length]? =
        some (tile.segment partition.baseDir partition.maxSegmentBytes partition.syncLevel) := by
    simp [withBlocks]
  unfold read at ran
  rw [locate_withTiles filed low high] at ran
  simp only [segment back] at ran
  obtain ⟨⟨answer, active⟩, between, inner, done⟩ := Program.exists_of_run_bind ran
  cases done
  rw [List.append_assoc, List.cons_append] at later ⊢
  have inside := Segment.lt_nextOffset_of_readAt inner
  have above : ∀ other ∈ back ++ spare, offset < other.baseOffset := fun other member =>
    Nat.lt_of_lt_of_le inside (later.nextOffset_le member)
  -- the log of this tile is the same file before and after
  have same : world.file? (logPath partition.baseDir tile.baseOffset) =
      after.file? (logPath partition.baseDir tile.baseOffset) :=
    (filed.onDisk tile (by simp)).log.trans (later.onDisk tile (by simp)).log.symm
  have again := (Segment.reads_readAt (tile.segment partition.baseDir partition.maxSegmentBytes
    partition.syncLevel) offset).run_eq same
  rw [inner] at again
  unfold read
  rw [locate_withTiles later low above]
  simp only [segment (back ++ spare)]
  rw [Program.run_bind_of_run again]
  exact ⟨_, rfl⟩

/-- A refused batch leaves the partition as it was exactly when the first
payload that is too large is found before anything is written. -/
theorem refused_batch
    (filed : Filed world partition.baseDir partition.maxSegmentBytes (front ++ [last]))
    (sole : ¬ world.Nests partition.baseDir) (atEnd : last.AtEnd)
    (ran : ((partition.withTiles (front ++ [last])).appendBatch payloads).run world =
      (.ok (.error error, result), after)) :
    (result.nextOffset = (partition.withTiles (front ++ [last])).nextOffset ∧
        StillReads world (partition.withTiles (front ++ [last])) after result) ↔
      RejectedWhole partition.maxSegmentBytes last.bytes.length payloads := by
  have ended := (appendBatch_ensures filed payloads fun _ => atEnd).of_run ran
  cases ended with
  | blocked nests error result after => exact absurd nests sole
  | tooLarge shape large same grown whole =>
    rename_i taken rest more
    obtain ⟨tiles, rfl, later, appended, -, -, held⟩ := grown
    have count : more.length = taken.length := by simpa using congrArg List.length same
    obtain ⟨others, final, rfl⟩ : ∃ others final, tiles = others ++ [final] :=
      ⟨_, _, (List.dropLast_append_getLast later.tiled.nonempty).symm⟩
    have offsets : (partition.withTiles (others ++ [final])).nextOffset =
        (partition.withTiles (front ++ [last])).nextOffset + taken.length := by
      rw [nextOffset_withTiles, nextOffset_withTiles, later.nextOffset_eq, filed.nextOffset_eq,
        appended, List.length_append, count]
    rw [← whole, offsets]
    constructor
    · rintro ⟨unmoved, -⟩
      exact List.length_eq_zero_iff.mp (by omega)
    · rintro rfl
      obtain ⟨spare, more⟩ := held (List.length_eq_zero_iff.mp count)
      rw [← more] at later ⊢
      exact ⟨rfl, stillReads_behind filed later⟩

end Partition

/-- A refused batch leaves no trace exactly when the payloads before its first
too large one fit together where the batch starts. -/
theorem refused_batch_without_trace_iff {settings : Settings}
    (session : Session settings world partition history)
    (ran : (partition.appendBatch payloads).run world = (.ok (.error error, result), after)) :
    (result.nextOffset = partition.nextOffset ∧ partition.StillReads world after result) ↔
      ∃ active, partition.segments.getLast? = some active ∧
        Partition.RejectedWhole settings.maxSegmentBytes active.currentSize payloads := by
  obtain ⟨syncLevel, tiles, kept⟩ := session.kept
  have filed := kept.layout.toFiled
  obtain ⟨front, last, rfl⟩ : ∃ front last, tiles = front ++ [last] :=
    ⟨_, _, (List.dropLast_append_getLast filed.tiled.nonempty).symm⟩
  have atEnd : last.AtEnd := .inl (kept.mode not_false last (by simp))
  have active : partition.segments.getLast? =
      some (last.segment settings.dir settings.maxSegmentBytes syncLevel) := by
    rw [kept.shape]
    exact Partition.getLast?_withBlocks (settings.frame syncLevel) front last
  rw [kept.shape] at ran active ⊢
  rw [Partition.refused_batch filed kept.layout.sole atEnd ran]
  constructor
  · exact fun whole => ⟨_, active, whole⟩
  · rintro ⟨other, same, whole⟩
    cases active.symm.trans same
    exact whole

/-- A fresh partition with segments of a hundred bytes. -/
private def freshPartition : Partition :=
  (Settings.frame ⟨"t", 0, [], 100⟩ .none).withTiles [Tile.fresh 0]

private theorem session_freshPartition :
    ∃ world, Session ⟨"t", 0, [], 100⟩ world freshPartition [] ∧
    world = ((Settings.openOrCreate ⟨"t", 0, [], 100⟩ (fun _ => []) .none).run blankWorld).2 := by
  have opened : ((Settings.openOrCreate ⟨"t", 0, [], 100⟩ (fun _ => []) .none).run blankWorld).1 =
      .ok (.ok freshPartition) := by decide +kernel
  exact ⟨_, .opened (fun _ => []) .none (vacant_blankWorld _) (enumerates_blankWorld _)
    (Prod.ext opened rfl), rfl⟩

theorem refused_batch_without_trace_iff_first_segment : ∃ world partition result after,
    Session ⟨"t", 0, [], 100⟩ world partition [] ∧
      (partition.appendBatch [[1], List.replicate 100 2]).run world =
        (.ok (.error .messageTooLarge, result), after) ∧
      result.nextOffset = partition.nextOffset ∧ partition.StillReads world after result := by
  obtain ⟨world, session, opened⟩ := session_freshPartition
  have refused : ((freshPartition.appendBatch [[1], List.replicate 100 2]).run world).1 =
      .ok (.error .messageTooLarge, freshPartition) := by
    rw [opened]
    decide +kernel
  obtain ⟨after, ran⟩ := Program.exists_run refused
  have fits : Partition.RejectedWhole 100 0 [[1], List.replicate 100 2] :=
    ⟨[[1]], _, [], rfl, by decide, by decide, .inl (by decide)⟩
  exact ⟨world, freshPartition, _, after, session, ran,
    (refused_batch_without_trace_iff session ran).mpr ⟨_, rfl, fits⟩⟩

/-- The first two payloads do not fit one segment together, so the first is
written before the loop comes to the third, which no segment takes: the batch is
refused with its first payload in the log. -/
theorem refused_batch_leaves_record : ∃ world partition result after,
    Session ⟨"t", 0, [], 100⟩ world partition [] ∧
      (partition.appendBatch [List.replicate 50 1, List.replicate 50 2,
        List.replicate 100 3]).run world = (.ok (.error .messageTooLarge, result), after) ∧
      partition.nextOffset = 0 ∧ result.nextOffset = 1 := by
  obtain ⟨world, session, opened⟩ := session_freshPartition
  have outcome : ((freshPartition.appendBatch
      [List.replicate 50 1, List.replicate 50 2, List.replicate 100 3]).run world).1.map
        (fun reply => (reply.1, reply.2.nextOffset)) = .ok (.error .messageTooLarge, 1) := by
    rw [opened]
    decide +kernel
  generalize whole : (freshPartition.appendBatch _).run world = ran at outcome
  obtain ⟨reply, after⟩ := ran
  cases reply with
  | error reason => cases outcome
  | ok reply =>
    obtain ⟨answer, result⟩ := reply
    simp only [Except.map, Except.ok.injEq, Prod.mk.injEq] at outcome
    obtain ⟨rfl, moved⟩ := outcome
    exact ⟨world, freshPartition, result, after, session, whole, rfl, moved⟩

end Ruka
