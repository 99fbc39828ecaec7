import Ruka.FetchGaps

/-! What a fetch owes its caller, gaps or not: it starts with the record that was
asked for, returns stored records in the order of their offsets, and exceeds the
budget only with a single record. -/
namespace Ruka
open BigEndian LexicalPaths FilePrograms TiledBlocks

/-- The bytes of these records in a log. -/
def totalRecords (records : List Record) : Nat :=
  (records.map fun record => recordLen record.key record.value).sum

/-- The log files of a partition, one behind the other. -/
def Partition.logBytes (world : World) (partition : Partition) : Bytes :=
  partition.segments.flatMap fun segment =>
    (world.file? (logPath partition.baseDir segment.baseOffset)).getD []

/-- What a fetch of `maxBytes` at `offset` returns from these stored records. -/
structure FetchedFrom (stored : List Record) (offset maxBytes : Nat)
    (records : List Record) : Prop where
  nothing : maxBytes = 0 ∨ stored.length ≤ offset → records = []
  progress : maxBytes ≠ 0 → offset < stored.length → ∃ record rest,
    records = record :: rest ∧ stored[offset]? = some record
  ascending : records.Pairwise fun a b => a.offset < b.offset
  truthful : ∀ record ∈ records, stored[record.offset]? = some record
  budget : records.length = 1 ∨ totalRecords records ≤ maxBytes

private theorem totalRecords_append (first second : List Record) :
    totalRecords (first ++ second) = totalRecords first + totalRecords second := by
  rw [totalRecords, List.map_append, List.sum_append]
  rfl

private theorem totalRecords_numbered (offset : Nat) (messages : List Message) :
    totalRecords (numbered offset messages) = totalSize messages := by
  induction messages generalizing offset with
  | nil => rfl
  | cons message rest ih =>
    have later := ih (offset + 1)
    simp only [totalRecords, totalSize, numbered, List.map_cons, List.sum_cons] at later ⊢
    rw [later]
    rfl

/-- The records of gapless tiles, numbered through. -/
theorem flatMap_records (tiled : Tiled Tile.baseOffset Tile.messages start tiles) :
    tiles.flatMap Tile.records = numbered start (contents tiles) := by
  induction tiles generalizing start with
  | nil => exact tiled.elim
  | cons tile rest ih =>
    have here : tile.baseOffset = start := by
      have first := Tiled.base_eq (show Tiled _ _ start ([] ++ tile :: rest) from tiled)
      exact first
    rw [List.flatMap_cons, contents_cons, numbered_append, Tile.records, here]
    cases rest with
    | nil => rfl
    | cons next rest => rw [ih tiled.2.2]

namespace Partition
variable {tile : Tile} {rest : List Tile} {offset budget : Nat}

/-- What is taken from one tile fits if its first message does. -/
private theorem totalSize_fetched (shape : fetched budget messages = message :: more)
    (fits : message.size ≤ budget) : totalSize (message :: more) ≤ budget := by
  cases messages with
  | nil => cases shape
  | cons first rest =>
    obtain ⟨rfl, rfl⟩ := List.cons.inj shape
    have later := totalSize_within (budget - first.size) rest
    simp only [totalSize, List.map_cons, List.sum_cons] at later ⊢
    omega

/-- A fetch stays within its budget, unless it returns one record. -/
theorem totalRecords_fetchAcross (tiles : List Tile) (offset budget : Nat) (results : List Record) :
    (fetchAcross tiles offset budget results).length = 1 ∨
      totalRecords (fetchAcross tiles offset budget results) ≤ totalRecords results + budget := by
  induction tiles generalizing offset budget results with
  | nil => exact .inr (Nat.le_add_right _ _)
  | cons tile rest ih =>
    unfold fetchAcross
    split
    · exact .inr (Nat.le_add_right _ _)
    split
    · exact ih _ _ _
    rename_i message more shape
    split
    · rename_i fits
      refine (ih _ _ _).imp_right fun bound => ?_
      have room := totalSize_fetched shape fits
      rw [totalRecords_append, totalRecords_numbered] at bound
      omega
    · split
      · exact .inl rfl
      · exact .inr (Nat.le_add_right _ _)

/-- Past the end of the log there is nothing to fetch. -/
theorem fetchAcross_past_end {world : World} {front back : List Tile}
    (filed : Filed world dir limit (front ++ tile :: back)) (low : tile.baseOffset ≤ offset)
    (high : ∀ later ∈ back, offset < later.baseOffset)
    (past : (contents (front ++ tile :: back)).length ≤ offset) (maxBytes : Nat) :
    fetchAcross (tile :: back) offset maxBytes [] = [] := by
  have exhausted : tile.remaining offset ++ contents back = [] := by
    rw [← filed.drop_contents low high]
    exact List.drop_eq_nil_of_le past
  have empty : tile.remaining offset = [] := (List.append_eq_nil_iff.mp exhausted).1
  cases back with
  | nil =>
    rw [fetchAcross, show tile.messages.drop (offset - tile.baseOffset) = [] from empty]
    simp [fetched, fetchAcross]
  | cons next back => exact absurd empty (filed.ahead low high).remaining_ne_nil

/-- What the segment loop collects is what a fetch owes. -/
theorem fetchedFrom_fetchAcross {world : World} {front back : List Tile}
    (filed : Filed world dir limit (front ++ tile :: back)) (low : tile.baseOffset ≤ offset)
    (high : ∀ later ∈ back, offset < later.baseOffset) (maxBytes : Nat) :
    FetchedFrom (numbered 0 (contents (front ++ tile :: back))) offset maxBytes
      (fetchAcross (tile :: back) offset maxBytes []) where
  nothing := by
    rintro (spent | past)
    · rw [fetchAcross, if_pos spent]
    · rw [length_numbered] at past
      exact fetchAcross_past_end filed low high past maxBytes
  progress := by
    intro nonzero inside
    rw [length_numbered] at inside
    have held := List.getElem?_eq_getElem inside
    obtain ⟨rest, shape⟩ := fetchAcross_head filed low high nonzero held
    refine ⟨_, rest, shape, ?_⟩
    rw [numbered_getElem?, held, Nat.zero_add]
    rfl
  ascending := (onward_fetchAcross filed.tiled.from_block low high maxBytes).1
  truthful := by
    intro record member
    obtain ⟨message, there, same⟩ :=
      (fetches_fetchAcross filed low high maxBytes).held record member
    rw [numbered_getElem?, Option.mem_def.mp there, Nat.zero_add, Option.map_some, ← same]
  budget := by
    have bound := totalRecords_fetchAcross (tile :: back) offset maxBytes []
    rwa [show totalRecords [] = 0 from rfl, Nat.zero_add] at bound

/-- The log files of filed tiles hold the records of the tiles. -/
theorem logBytes_withTiles {world : World} {partition : Partition} {tiles : List Tile}
    (filed : Filed world partition.baseDir limit tiles) :
    (partition.withTiles tiles).logBytes world = encodeAll (numbered 0 (contents tiles)) := by
  have files : ∀ tile ∈ tiles, (world.file? (logPath partition.baseDir tile.baseOffset)).getD [] =
      encodeAll tile.records := by
    intro tile member
    rw [(filed.onDisk tile member).log]
    rfl
  rw [← flatMap_records filed.tiled, encodeAll, List.flatMap_assoc, logBytes, withTiles, withBlocks,
    List.flatMap_map]
  exact List.flatMap_congr files

end Partition

/-- In every session the log files hold one list of records, numbered from zero,
that explains all answers so far, and every fetch returns from it what a fetch owes. -/
theorem fetch_progress_truth_budget {settings : Settings}
    (session : Session settings world partition history) (small : ∀ call ∈ history, call.1.Small) :
    ∃ stored : List Record, partition.logBytes world = encodeAll stored ∧
      stored.map Record.offset = List.range' 0 stored.length ∧
      LogRun settings.maxSegmentBytes history
        (stored.map fun record => (record.key, record.value)) ∧
      partition.nextOffset = stored.length ∧
      ∀ offset maxBytes, ∃ records result,
        (partition.readBatch offset maxBytes).run world = (.ok (.ok records, result), world) ∧
          FetchedFrom stored offset maxBytes records := by
  obtain ⟨syncLevel, tiles, kept⟩ := session.kept
  have filed : Filed world (settings.frame syncLevel).baseDir
      (settings.frame syncLevel).maxSegmentBytes
    tiles := kept.layout.toFiled
  refine ⟨numbered 0 (contents tiles), ?_, ?_, ?_, ?_, ?_⟩
  · rw [kept.shape]
    exact Partition.logBytes_withTiles filed
  · rw [map_offset_numbered, length_numbered]
  · rw [map_content_numbered]
    exact kept.explained small
  · rw [kept.nextOffset_eq, length_logOf, length_numbered]
  · intro offset maxBytes
    obtain ⟨front, tile, back, rfl, low, high⟩ := filed.tiled.exists_floor (Nat.zero_le offset)
    obtain ⟨others, -, ran⟩ := Partition.run_readBatch filed (kept.small small) low high maxBytes
    rw [← kept.shape] at ran
    exact ⟨_, _, ran, Partition.fetchedFrom_fetchAcross filed low high maxBytes⟩

/-- Two segments, and a fetch with a budget of one byte. -/
theorem fetch_progress_truth_budget_one_byte : ∃ world partition history stored records result,
    Session ⟨"t", 0, [], 60⟩ world partition history ∧
      history.map Prod.fst = [.append none (some [1, 2]), .appendBatch [[3], [4]]] ∧
      (partition.readBatch 2 1).run world = (.ok (.ok records, result), world) ∧
      partition.nextOffset = stored.length ∧ FetchedFrom stored 2 1 records := by
  obtain ⟨world, partition, history, session, shape⟩ := exists_session ⟨"t", 0, [], 60⟩ (by decide)
    [.append none (some [1, 2]), .appendBatch [[3], [4]]] (by decide) (by decide)
  have small : ∀ call ∈ history, call.1.Small := by
    intro call member
    have image := List.mem_map_of_mem (f := Prod.fst) member
    rw [shape] at image
    exact (by decide : ∀ request ∈ [Request.append none (some [1, 2]), .appendBatch [[3], [4]]],
      request.Small) _ image
  obtain ⟨stored, -, -, -, next, fetches⟩ := fetch_progress_truth_budget session small
  obtain ⟨records, result, ran, owed⟩ := fetches 2 1
  exact ⟨world, partition, history, stored, records, result, session, shape, ran, next, owed⟩

end Ruka
