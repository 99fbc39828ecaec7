import Mathlib.Data.List.Perm.Subperm
import Ruka.SegmentAdditions

/-! A log that lost its end while its index did not. Loading cuts the log to
its whole records and sets the counters by them, but an index with entries is
kept as it is: the entries of the lost records stay, in memory and in the file,
in front of those of the records that take their offsets. -/
namespace Ruka
open BigEndian LexicalPaths FilePrograms

/-- The index is the list of positions of the records in the log, in memory and
in its file. -/
structure Segment.InLine (world : World) (segment : Segment) (records : List Record) : Prop where
  log : world.file? segment.logFile.path = some (encodeAll records)
  entries : segment.index.entries = positions 0 records
  file : world.file? segment.index.file.path = some (encodeEntries segment.index.entries)
  increasing : segment.index.entries.Pairwise fun a b => a.offset < b.offset
  below : ∀ entry ∈ segment.index.entries, entry.offset < segment.nextOffset

/-- Strictly increasing offsets between two bounds are no more than fit there. -/
theorem length_le_of_increasing {entries : List IndexEntry}
    (increasing : entries.Pairwise fun a b => a.offset < b.offset)
    (bounds : ∀ entry ∈ entries, low ≤ entry.offset ∧ entry.offset < low + count) :
    entries.length ≤ count := by
  have distinct : (entries.map IndexEntry.offset).Nodup :=
    List.pairwise_map.mpr (increasing.imp fun less => Nat.ne_of_lt less)
  have within : entries.map IndexEntry.offset ⊆ List.range' low count := by
    intro offset member
    obtain ⟨entry, held, rfl⟩ := List.mem_map.mp member
    exact List.mem_range'_1.mpr (bounds entry held)
  have fewer := (List.subperm_of_subset distinct within).length_le
  simpa using fewer

private theorem small_of_receipts {messages : List Message}
    (small : ∀ receipt ∈ (messages.map Message.content).zipIdx offset,
      recordLen receipt.1.1 receipt.1.2 < 2 ^ 32) :
    Small messages := by
  refine small_of_content fun content member => ?_
  rw [← List.zipIdx_map_fst offset (messages.map Message.content)] at member
  obtain ⟨receipt, held, rfl⟩ := List.mem_map.mp member
  exact small receipt held

/-- Nothing is missing exactly when the cut is behind the end. -/
private theorem take_whole_iff {whole rest : List Message} (small : Small (whole ++ rest))
    (offsets : offset + (whole ++ rest).length < 2 ^ 64)
    (torn : Record.decode tail = some (.ok none, tail))
    (part : (encodeAll (numbered offset (whole ++ rest))).take kept =
      encodeAll (numbered offset whole) ++ tail) :
      rest = [] ↔ (encodeAll (numbered offset (whole ++ rest))).length ≤ kept := by
  constructor
  · rintro rfl
    have length := congrArg List.length part
    simp only [List.append_nil, List.length_take, List.length_append] at length ⊢
    omega
  · intro behind
    rw [List.take_of_length_le behind, numbered_append, encodeAll_append] at part
    obtain rfl := List.append_cancel_left part
    cases rest with
    | nil => rfl
    | cons message more =>
      rw [List.length_append, List.length_cons] at offsets
      have fits : (message.record (offset + whole.length)).Fits :=
        Message.fits_record (small message (by simp)) (by omega)
      rw [numbered, encodeAll_cons, Record.decode_encode fits] at torn
      cases torn

namespace Segment
variable {world disk opened : World} {fresh : Segment} {dir : Path} {baseOffset limit : Nat}
  {level : SyncLevel} {messages : List Message}

/-- What loading makes of a log cut anywhere next to its whole index. -/
theorem load_truncated (small : Small messages) (offsets : baseOffset + messages.length < 2 ^ 64)
    (size : (encodeAll (numbered baseOffset messages)).length < 2 ^ 64)
    (cut : disk.file? (logPath dir baseOffset) =
      some ((encodeAll (numbered baseOffset messages)).take kept))
    (index : disk.file? (indexPath dir baseOffset) =
      some (encodeEntries (positions 0 (numbered baseOffset messages))))
    (ran : (load dir baseOffset limit level).run disk = (.ok (.ok fresh), opened)) :
    ∃ whole rest, messages = whole ++ rest ∧
      (rest = [] ↔ (encodeAll (numbered baseOffset messages)).length ≤ kept) ∧
      fresh = { (⟨baseOffset, whole, false, (encodeAll (numbered baseOffset whole)).length⟩ :
        Tile).segment dir limit level with
        index := Index.holding (indexPath dir baseOffset)
          (positions 0 (numbered baseOffset messages)) } ∧
      opened.file? (logPath dir baseOffset) = some (encodeAll (numbered baseOffset whole)) ∧
      opened.file? (indexPath dir baseOffset) =
        some (encodeEntries (positions 0 (numbered baseOffset messages))) := by
  obtain ⟨whole, rest, tail, rfl, torn, part⟩ :=
    take_encodeAll messages small (Nat.le_of_lt offsets) kept
  have bounded : (⟨baseOffset, whole ++ rest, false, 0⟩ : Tile).Bounded _ :=
    ⟨Nat.le_refl _, size, offsets⟩
  have indexed : (loadIndex (indexPath dir baseOffset)).run disk =
      (.ok (.ok (Index.holding (indexPath dir baseOffset)
        (positions 0 (numbered baseOffset (whole ++ rest))))), disk) := by
    unfold loadIndex
    rw [Program.run_bind_of_run (Index.run_load _ index (indexPath_ne_nil dir _)
      (fits_entries bounded))]
    rfl
  have shorter : baseOffset + whole.length < 2 ^ 64 := by
    rw [List.length_append] at offsets
    omega
  have ended := take_whole_iff small offsets torn part
  have same : recoveredEntries ⟨baseOffset, whole, false, 0⟩
      (positions 0 (numbered baseOffset (whole ++ rest))) =
        positions 0 (numbered baseOffset (whole ++ rest)) := by
    unfold recoveredEntries
    split
    · rename_i empty
      have length := congrArg List.length empty
      rw [length_positions, length_numbered, List.length_append, List.length_nil] at length
      have nothing : whole = [] := List.length_eq_zero_iff.mp (by omega)
      rw [empty, nothing]
      rfl
    · rfl
  rw [part] at cut
  have smallWhole : Small (⟨baseOffset, whole, false, 0⟩ : Tile).messages :=
    fun message member => small message (List.mem_append_left _ member)
  have loads := run_load_from limit level smallWhole shorter torn _ cut indexed cut index
  rw [same, ran] at loads
  cases loads
  refine ⟨whole, rest, rfl, ended, rfl, World.file?_put _ _ _, ?_⟩
  rw [World.file?_put_ne _ _ (Ne.symm (logPath_ne_indexPath dir _ _))]
  exact World.file?_put _ _ _

end Segment

/-- After a load and any appends that succeed, the index is in line with the log
exactly when the log had lost nothing. -/
theorem truncated_log_in_line_iff {world disk opened after : World} {segment fresh result : Segment}
    {dir : Path} {baseOffset maxBytes limit : Nat} {syncLevel level : SyncLevel}
    (written : Segment.Written dir baseOffset maxBytes syncLevel receipts world segment)
    (width : baseOffset < 2 ^ 64)
    (small : ∀ receipt ∈ receipts, recordLen receipt.1.1 receipt.1.2 < 2 ^ 32)
    (held : world.file? (logPath dir baseOffset) = some bytes)
    (cut : disk.file? (logPath dir baseOffset) = some (bytes.take kept))
    (index : disk.file? (indexPath dir baseOffset) = world.file? (indexPath dir baseOffset))
    (loaded : (Segment.load dir baseOffset limit level).run disk = (.ok (.ok fresh), opened))
    (adds : fresh.Adds opened more after result) :
    (∃ records, result.InLine after records) ↔ bytes.length ≤ kept := by
  obtain ⟨messages, cursor, rfl, onDisk, rfl, widths⟩ := written.tile
  replace small := small_of_receipts small
  obtain rfl : encodeAll (numbered baseOffset messages) = bytes :=
    Option.some.inj (onDisk.log.symm.trans held)
  have bounds : baseOffset + messages.length < 2 ^ 64 ∧
      (encodeAll (numbered baseOffset messages)).length < 2 ^ 64 := by
    cases messages with
    | nil => exact ⟨width, Nat.two_pow_pos 64⟩
    | cons message rest => exact widths (List.cons_ne_nil _ _)
  obtain ⟨whole, rest, rfl, ended, rfl, log, indexFile⟩ :=
    Segment.load_truncated small bounds.1 bounds.2 cut (index.trans onDisk.index) loaded
  obtain ⟨later, -, grows⟩ := adds.grows (Ne.symm (logPath_ne_indexPath dir _ _))
  obtain ⟨place, further, rfl⟩ := grows.shape
  rw [← ended]
  constructor
  · rintro ⟨records, line⟩
    -- one entry for each offset ever written does not fit between the bounds
    have fewer := length_le_of_increasing line.increasing fun entry member =>
      ⟨?_, Nat.lt_of_lt_of_eq (line.below entry member)
        (Nat.add_assoc baseOffset whole.length later.length)⟩
    · simp only [Tile.segment, Index.holding, List.length_append, length_positions,
        length_numbered] at fewer
      exact List.length_eq_zero_iff.mp (by omega)
    · rcases List.mem_append.mp member with old | new
      · exact (offset_bounds_of_mem_positions old).1
      · exact Nat.le_trans (Nat.le_add_right _ _) (offset_bounds_of_mem_positions new).1
  · rintro rfl
    rw [List.append_nil] at indexFile
    obtain ⟨grown, -⟩ := grows.log _ log (.inr rfl)
    have filed := grows.indexed ⟨by simp [Index.holding],
      by simpa [Tile.segment, Index.holding] using indexFile⟩
    have entries : positions 0 (numbered baseOffset (whole ++ later)) =
        positions 0 (numbered baseOffset (whole ++ [])) ++
          positions (encodeAll (numbered baseOffset whole)).length
            (numbered (baseOffset + whole.length) later) := by
      rw [List.append_nil, numbered_append, positions_append, Nat.zero_add]
    refine ⟨numbered baseOffset (whole ++ later), ?_, entries.symm, filed.file, ?_,
      fun entry member => ?_⟩
    · have bytes : encodeAll (numbered baseOffset whole) ++
          encodeAll (numbered (baseOffset + whole.length) later) =
            encodeAll (numbered baseOffset (whole ++ later)) := by
        rw [numbered_append, encodeAll_append]
      exact grown.trans (congrArg some bytes)
    · exact entries ▸ positions_sorted 0 baseOffset (whole ++ later)
    · replace member : entry ∈ positions 0 (numbered baseOffset (whole ++ later)) :=
        entries ▸ member
      have bound := (offset_bounds_of_mem_positions member).2
      rw [List.length_append, ← Nat.add_assoc] at bound
      exact bound

/-- A segment of two records of 29 and 30 bytes. -/
private def twoRecords : Tile := ⟨0, [⟨0, none, some [1]⟩, ⟨0, none, some [2, 2]⟩], true, 59⟩

private def twoRecordsWorld : World :=
  (((Tile.fresh 0).segment [] 1000 .none).add (.appendBatch [[1], [2, 2]])).run
    ((Segment.create [] 0 1000 .none).run blankWorld).2 |>.2

private theorem written_twoRecords : Segment.Written [] 0 1000 .none
    [((none, some [1]), 0), ((none, some [2, 2]), 1)] twoRecordsWorld
      (twoRecords.segment [] 1000 .none) := by
  have created : ((Segment.create [] 0 1000 .none).run blankWorld).1 =
      .ok (.ok ((Tile.fresh 0).segment [] 1000 .none)) := by decide +kernel
  have added : ((((Tile.fresh 0).segment [] 1000 .none).add (.appendBatch [[1], [2, 2]])).run
      ((Segment.create [] 0 1000 .none).run blankWorld).2).1 =
      .ok (.ok (0, 2), twoRecords.segment [] 1000 .none) := by decide +kernel
  exact ⟨blankWorld, _, _, rfl, Prod.ext created rfl, .more .none (Prod.ext added rfl)⟩

private theorem log_twoRecords :
    twoRecordsWorld.file? (logPath [] 0) = some twoRecords.bytes := by decide +kernel

/-- The same loaded, and a third record behind them. -/
private def threeRecords : Tile :=
  ⟨0, [⟨0, none, some [1]⟩, ⟨0, none, some [2, 2]⟩, ⟨1, none, some [3]⟩], false, 88⟩

theorem truncated_log_in_line_iff_whole : ∃ world segment bytes opened fresh after result,
    Segment.Written [] 0 1000 .none [((none, some [1]), 0), ((none, some [2, 2]), 1)]
      world segment ∧ world.file? (logPath [] 0) = some bytes ∧ bytes.length = 59 ∧
      (Segment.load [] 0 1000 .none).run world = (.ok (.ok fresh), opened) ∧
      fresh.Adds opened [((none, some [3]), 2)] after result ∧
      ∃ records, result.InLine after records := by
  have loaded : ((Segment.load [] 0 1000 .none).run twoRecordsWorld).1 =
      .ok (.ok (twoRecords.reopened.segment [] 1000 .none)) := by decide +kernel
  have added : (((twoRecords.reopened.segment [] 1000 .none).add (.append none (some [3]))).run
      ((Segment.load [] 0 1000 .none).run twoRecordsWorld).2).1 =
      .ok (.ok (2, 1), threeRecords.segment [] 1000 .none) := by decide +kernel
  have adds : (twoRecords.reopened.segment [] 1000 .none).Adds
      ((Segment.load [] 0 1000 .none).run twoRecordsWorld).2 [((none, some [3]), 2)] _
        (threeRecords.segment [] 1000 .none) := .more .none (Prod.ext added rfl)
  have ran := Prod.ext loaded rfl
  have cut : twoRecordsWorld.file? (logPath [] 0) =
      some (twoRecords.bytes.take 59) := by decide +kernel
  exact ⟨_, _, _, _, _, _, _, written_twoRecords, log_twoRecords, by decide, ran, adds,
    (truncated_log_in_line_iff written_twoRecords (by decide) (by decide) log_twoRecords cut rfl ran
      adds).mpr (by decide)⟩

private def cutWorld : World := twoRecordsWorld.put (logPath [] 0) (twoRecords.bytes.take 40)

/-- What is loaded from it, and that with a third record appended. -/
private def cutSegment : Segment :=
  { (⟨0, [⟨0, none, some [1]⟩], false, 29⟩ : Tile).segment [] 1000 .none with
    index := Index.holding (indexPath [] 0) twoRecords.entries }

private def staleSegment : Segment :=
  { (⟨0, [⟨0, none, some [1]⟩, ⟨1, none, some [3]⟩], false, 58⟩ : Tile).segment [] 1000 .none with
    index := Index.holding (indexPath [] 0) [⟨0, 0⟩, ⟨1, 29⟩, ⟨1, 29⟩] }

/-- The log is cut inside its second record, loaded and appended to: offset 1
has two entries, of which the first was for the record that is gone. -/
theorem stale_entry_after_truncation : ∃ world segment bytes disk opened after fresh result,
    Segment.Written [] 0 1000 .none [((none, some [1]), 0), ((none, some [2, 2]), 1)]
      world segment ∧ world.file? (logPath [] 0) = some bytes ∧
      disk.file? (logPath [] 0) = some (bytes.take 40) ∧
      disk.file? (indexPath [] 0) = world.file? (indexPath [] 0) ∧
      (Segment.load [] 0 1000 .none).run disk = (.ok (.ok fresh), opened) ∧
      fresh.Adds opened [((none, some [3]), 1)] after result ∧ result.nextOffset = 2 ∧
      result.index.entries = [⟨0, 0⟩, ⟨1, 29⟩, ⟨1, 29⟩] ∧
      ¬ ∃ records, result.InLine after records := by
  have loaded : ((Segment.load [] 0 1000 .none).run cutWorld).1 =
      .ok (.ok cutSegment) := by decide +kernel
  have added : ((cutSegment.add (.append none (some [3]))).run
      ((Segment.load [] 0 1000 .none).run cutWorld).2).1 =
        .ok (.ok (1, 1), staleSegment) := by decide +kernel
  have adds : cutSegment.Adds ((Segment.load [] 0 1000 .none).run cutWorld).2
      [((none, some [3]), 1)] _ staleSegment :=
    .more .none (Prod.ext added rfl)
  have index : cutWorld.file? (indexPath [] 0) = twoRecordsWorld.file? (indexPath [] 0) :=
    World.file?_put_ne _ _ (Ne.symm (logPath_ne_indexPath [] 0 0))
  have twice : ¬ staleSegment.index.entries.Pairwise fun a b => a.offset < b.offset := by decide
  exact ⟨twoRecordsWorld, _, twoRecords.bytes, cutWorld, _, _, cutSegment, staleSegment,
    written_twoRecords, log_twoRecords, World.file?_put _ _ _, index, Prod.ext loaded rfl, adds,
    by decide, by decide, fun ⟨_, line⟩ => twice line.increasing⟩

end Ruka
