import Ruka.PartitionStorage

/-! What reading a partition returns, and what opening one finds. Reads move
cursors and nothing else, so the layout they leave is the one they found. -/
namespace Ruka
open BigEndian LexicalPaths FilePrograms DecimalNames SortedSearch TiledBlocks

/-- The same tiles apart from the cursors of their logs. -/
abbrev SameTiles := SameBlocks (Tile.moved · 0)

/-- The same tiles apart from how their logs were opened and moved. -/
abbrev SameLogs := SameBlocks fun tile : Tile => (tile.baseOffset, tile.messages)

theorem SameTiles.sameLogs (same : SameTiles tiles others) : SameLogs tiles others :=
  same.coarsen (fun tile => (tile.baseOffset, tile.messages)) fun _ => rfl

theorem SameTiles.appendMode (same : SameTiles tiles others) (mode : AppendMode tiles) :
    AppendMode others := by
  intro other member
  obtain ⟨tile, found, twin⟩ := same.exists_twin member
  exact (congrArg Tile.appendMode twin).symm.trans (mode tile found)

namespace SameLogs

theorem contents (same : SameLogs tiles others) : contents others = contents tiles := by
  have flat (list : List Tile) : Ruka.contents list =
      (list.map fun tile => (tile.baseOffset, tile.messages)).flatMap Prod.snd := by
    simp [Ruka.contents, List.flatMap_map]
  rw [flat, flat, same]

theorem exists_tile (same : SameLogs tiles others) (member : other ∈ others) :
    ∃ tile ∈ tiles, tile.baseOffset = other.baseOffset ∧ tile.messages = other.messages := by
  obtain ⟨tile, found, twin⟩ := same.exists_twin member
  exact ⟨tile, found, congrArg Prod.fst twin, congrArg Prod.snd twin⟩

theorem reopened (tiles : List Tile) : SameLogs tiles (tiles.map Tile.reopened) := by
  simp [SameBlocks, Function.comp_def, Tile.reopened]

theorem bounded (same : SameLogs tiles others) (bounded : ∀ tile ∈ tiles, tile.Bounded maxBytes) :
    ∀ other ∈ others, other.Bounded maxBytes := by
  intro other member
  obtain ⟨tile, found, base, messages⟩ := same.exists_tile member
  obtain ⟨size, width, offsets⟩ := bounded tile found
  simp only [Tile.bytes, Tile.records, Tile.nextOffset, base, messages] at size width offsets
  exact ⟨size, width, offsets⟩

/-- The files of one list carry the names of the other. -/
theorem named (same : SameLogs tiles others)
    (named : ∃ tile ∈ tiles, name = logName tile.baseOffset ∨ name = indexName tile.baseOffset) :
    ∃ other ∈ others, name = logName other.baseOffset ∨ name = indexName other.baseOffset := by
  obtain ⟨tile, found, named⟩ := named
  obtain ⟨other, member, base, -⟩ := exists_tile same.symm found
  exact ⟨other, member, base ▸ named⟩

end SameLogs

namespace Filed
variable {world : World} {dir : Path} {tiles others : List Tile}

/-- How the logs were opened and moved is no part of the filed. -/
theorem of_sameLogs (filed : Filed world dir maxBytes tiles) (same : SameLogs tiles others) :
    Filed world dir maxBytes others := by
  refine ⟨filed.tiled.of_same same, same.bounded filed.bounded, filed.directory,
    fun other member => ?_, fun name data held => same.named (filed.files name data held)⟩
  obtain ⟨tile, found, base, messages⟩ := same.exists_tile member
  have disk := filed.onDisk tile found
  refine ⟨?_, ?_⟩
  · simpa only [Tile.bytes, Tile.records, base, messages] using disk.log
  · simpa only [Tile.entries, Tile.records, base, messages] using disk.index

private theorem reopened (filed : Filed world dir maxBytes tiles) :
    Filed world dir maxBytes (tiles.map Tile.reopened) :=
  filed.of_sameLogs (.reopened tiles)

theorem small_tile (small : Small (contents tiles)) (member : tile ∈ tiles) : Small tile.messages :=
  fun message found => small message (List.mem_flatMap.mpr ⟨tile, member, found⟩)

end Filed

theorem Layout.reopened {world : World} {dir : Path} {tiles : List Tile}
    (layout : Layout world dir maxBytes tiles) :
    Layout world dir maxBytes (tiles.map Tile.reopened) :=
  ⟨layout.toFiled.reopened, layout.sole⟩

/-- Where a tile ends no later one has begun. -/
theorem Filed.nextOffset_le {world : World} {front back : List Tile} {tile later : Tile}
    (filed : Filed world dir maxBytes (front ++ tile :: back)) (member : later ∈ back) :
    tile.nextOffset ≤ later.baseOffset :=
  (List.pairwise_cons.mp filed.tiled.from_block.apart).1 later member

/-- Records in the order of their offsets, from this offset on. -/
def Onward (offset : Nat) (records : List Record) : Prop :=
  (records.Pairwise fun a b => a.offset < b.offset) ∧ ∀ record ∈ records, offset ≤ record.offset

namespace Onward

theorem nil (offset : Nat) : Onward offset [] := ⟨List.Pairwise.nil, List.forall_mem_nil _⟩

theorem mono (onward : Onward offset records) (below : start ≤ offset) : Onward start records :=
  ⟨onward.1, fun record member => Nat.le_trans below (onward.2 record member)⟩

theorem append (first : Onward offset records) (second : Onward bound more) (below : offset ≤ bound)
    (before : more ≠ [] → ∀ record ∈ records, record.offset < bound) :
    Onward offset (records ++ more) := by
  constructor
  · refine List.pairwise_append.mpr ⟨first.1, second.1, fun record member later added => ?_⟩
    exact Nat.lt_of_lt_of_le (before (List.ne_nil_of_mem added) record member)
      (second.2 later added)
  · intro record member
    rcases List.mem_append.mp member with earlier | later
    · exact first.2 record earlier
    · exact Nat.le_trans below (second.2 record later)

end Onward

theorem onward_numbered (offset : Nat) (messages : List Message) :
    Onward offset (numbered offset messages) := by
  refine ⟨?_, fun record member => (numbered_offset_bounds member).1⟩
  induction messages generalizing offset with
  | nil => exact List.Pairwise.nil
  | cons message rest ih =>
    exact List.pairwise_cons.mpr ⟨fun record member => (numbered_offset_bounds member).1,
      ih (offset + 1)⟩

namespace Partition
variable {world after : World} {partition : Partition} {tiles front back : List Tile} {tile : Tile}

section Blocks
variable {segment : Path → Nat → SyncLevel → β → Segment} {before behind others : List β}
  {block moved : β}

/-- Both read paths start from the block the offset falls into. -/
theorem locate_withBlocks
    (sorted : (before ++ block :: behind).Pairwise fun a b =>
      (segment partition.baseDir partition.maxSegmentBytes partition.syncLevel a).baseOffset <
        (segment partition.baseDir partition.maxSegmentBytes partition.syncLevel b).baseOffset)
    (low : (segment partition.baseDir partition.maxSegmentBytes partition.syncLevel
      block).baseOffset ≤ offset)
    (high : ∀ later ∈ behind,
      offset < (segment partition.baseDir partition.maxSegmentBytes partition.syncLevel
        later).baseOffset) :
    (partition.withBlocks segment (before ++ block :: behind)).locate offset =
      some before.length := by
  have shape : (partition.withBlocks segment (before ++ block :: behind)).segments =
      before.map (segment partition.baseDir partition.maxSegmentBytes partition.syncLevel) ++
        segment partition.baseDir partition.maxSegmentBytes partition.syncLevel block ::
          behind.map (segment partition.baseDir partition.maxSegmentBytes partition.syncLevel) := by
    simp [withBlocks]
  have keyed : (partition.withBlocks segment (before ++ block :: behind)).segments.Pairwise
      (fun a b => a.baseOffset < b.baseOffset) := List.pairwise_map.mpr sorted
  unfold locate
  rw [shape] at keyed ⊢
  rw [floorByKey_eq_some keyed low (List.forall_mem_map.mpr high), List.length_map]

theorem run_read_withBlocks
    (located : (partition.withBlocks segment (before ++ block :: behind)).locate offset =
      some before.length)
    (ran : ((segment partition.baseDir partition.maxSegmentBytes partition.syncLevel block).readAt
      offset).run world = (.ok (answer,
        segment partition.baseDir partition.maxSegmentBytes partition.syncLevel moved), after)) :
    ((partition.withBlocks segment (before ++ block :: behind)).read offset).run world =
      (.ok (answer, partition.withBlocks segment (before ++ moved :: behind)), after) := by
  have found : (partition.withBlocks segment (before ++ block :: behind)).segments[before.length]? =
      some (segment partition.baseDir partition.maxSegmentBytes partition.syncLevel block) := by
    simp [withBlocks]
  unfold read
  rw [located]
  simp only [found]
  rw [Program.run_bind_of_run ran]
  simp [withBlocks]

theorem run_readBatch_withBlocks
    (located : (partition.withBlocks segment (before ++ block :: behind)).locate offset =
      some before.length)
    (ran : (readFrom ((block :: behind).map
      (segment partition.baseDir partition.maxSegmentBytes partition.syncLevel))
        offset maxBytes []).run world =
      (.ok (answer, others.map (segment partition.baseDir partition.maxSegmentBytes
        partition.syncLevel)), after)) :
    ((partition.withBlocks segment (before ++ block :: behind)).readBatch offset
      maxBytes).run world = (.ok (answer,
        partition.withBlocks segment (before ++ others)), after) := by
  have rest : (partition.withBlocks segment (before ++ block :: behind)).segments.drop
      before.length = (block :: behind).map
        (segment partition.baseDir partition.maxSegmentBytes partition.syncLevel) := by
    simp [withBlocks]
  unfold readBatch
  rw [located]
  simp only [rest]
  rw [Program.run_bind_of_run ran]
  simp [withBlocks]

end Blocks

theorem locate_withTiles (filed : Filed world dir maxBytes (front ++ tile :: back))
    (low : tile.baseOffset ≤ offset) (high : ∀ later ∈ back, offset < later.baseOffset) :
    (partition.withTiles (front ++ tile :: back)).locate offset = some front.length :=
  locate_withBlocks filed.tiled.sorted low high

/-- `read` returns the message at the offset, or nothing past the end. -/
theorem run_read (filed : Filed world partition.baseDir partition.maxSegmentBytes tiles)
    (small : Small (contents tiles)) (offset : Nat) :
    ∃ others, SameTiles tiles others ∧ ((partition.withTiles tiles).read offset).run world =
      (.ok (.ok ((contents tiles)[offset]?.map (·.record offset)),
        partition.withTiles others), world) := by
  obtain ⟨front, tile, back, rfl, low, high⟩ := filed.tiled.exists_floor (Nat.zero_le offset)
  have member : tile ∈ front ++ tile :: back := by simp
  obtain ⟨cursor, ran⟩ := Segment.run_readAt partition.maxSegmentBytes partition.syncLevel
    (filed.onDisk tile member) (filed.bounded tile member).offsets
      (Filed.small_tile small member) low
  have held : (contents (front ++ tile :: back))[offset]? =
      tile.messages[offset - tile.baseOffset]? := by
    have inside := filed.tiled.getElem?_floor low high
    rwa [Nat.sub_zero] at inside
  rw [held]
  exact ⟨front ++ tile.moved cursor :: back, SameBlocks.append_left front (.cons (.refl back) rfl),
    run_read_withBlocks (locate_withTiles filed low high) ran⟩

/-- The base offset of the next tile, where there is one. -/
def nextTileBase (rest : List Tile) (offset : Nat) : Nat :=
  (rest.head?.map Tile.baseOffset).getD offset

/-- What the two loops of `read_batch` collect from these tiles. -/
def fetchAcross : List Tile → Nat → Nat → List Record → List Record
  | [], _, _, results => results
  | tile :: rest, offset, budget, results =>
    if budget = 0 then results
    else match fetched budget (tile.messages.drop (offset - tile.baseOffset)) with
      | [] => fetchAcross rest (nextTileBase rest offset) budget results
      | message :: more =>
        if message.size ≤ budget then
          fetchAcross rest (nextTileBase rest offset) (budget - totalSize (message :: more))
            (results ++ numbered offset (message :: more))
        else if results = [] then [message.record offset] else results

private theorem recLen_eq {message : Message} (small : message.size < 2 ^ 32) :
    28 + fieldLen message.key % 2 ^ 32 + fieldLen message.value % 2 ^ 32 = message.size := by
  simp only [Message.size, recordLen] at small ⊢
  rw [Nat.mod_eq_of_lt (by omega), Nat.mod_eq_of_lt (by omega)]
  omega

/-- Records that fit the budget together are all taken. -/
theorem run_takeRecords (messages : List Message) (small : Small messages)
    (width : offset + messages.length < 2 ^ 64) (fits : totalSize messages ≤ budget)
    (results : List Record) (world : World) :
    (takeRecords (numbered offset messages) budget results).run world =
      (.ok (.more (budget - totalSize messages) (results ++ numbered offset messages)), world) := by
  induction messages generalizing offset budget results with
  | nil => simp [takeRecords, numbered, totalSize]
  | cons message rest ih =>
    have size : message.size < 2 ^ 32 := small message (by simp)
    simp only [totalSize, List.map_cons, List.sum_cons, List.length_cons] at fits width
    have tail : (takeRecords (numbered (offset + 1) rest) (budget - message.size)
        (results ++ [message.record offset])).run world = _ :=
      ih (fun other member => small other (by simp [member])) (by omega)
        (by simp only [totalSize]; omega) _
    rw [numbered, takeRecords, show (message.record offset).key = message.key from rfl,
      show (message.record offset).value = message.value from rfl, recLen_eq size,
      Program.run_bind_of_run (Program.run_checked size _), if_pos (by omega),
      Program.run_bind_of_run (Program.run_checked (by simp only [Message.record]; omega) _), tail]
    simp [totalSize, Nat.sub_sub]

/-- The record loop on what one segment returned. -/
theorem run_takeRecords_fetched (message : Message) (more : List Message)
    (small : Small (message :: more)) (width : offset + (message :: more).length < 2 ^ 64)
    (fits : totalSize more ≤ budget - message.size) (results : List Record) (world : World) :
    (takeRecords (numbered offset (message :: more)) budget results).run world =
      (.ok (if message.size ≤ budget then
          .more (budget - totalSize (message :: more))
            (results ++ numbered offset (message :: more))
        else .full (if results = [] then [message.record offset] else results)), world) := by
  by_cases room : message.size ≤ budget
  · rw [if_pos room]
    refine run_takeRecords _ small width ?_ results world
    simp only [totalSize, List.map_cons, List.sum_cons] at fits ⊢
    omega
  · have size : message.size < 2 ^ 32 := small message (by simp)
    rw [if_neg room, numbered, takeRecords, show (message.record offset).key = message.key from rfl,
      show (message.record offset).value = message.value from rfl, recLen_eq size,
      Program.run_bind_of_run (Program.run_checked size _), if_neg room]
    split <;> rfl

/-- The segment loop of `read_batch`. -/
theorem run_readFrom (dir : Path) (maxBytes : Nat) (syncLevel : SyncLevel) (tiles : List Tile)
    (onDisk : ∀ tile ∈ tiles, tile.OnDisk world dir)
    (bounded : ∀ tile ∈ tiles, tile.Bounded maxBytes) (small : ∀ tile ∈ tiles, Small tile.messages)
    (offset budget : Nat) (low : ∀ tile ∈ tiles.head?, tile.baseOffset ≤ offset)
    (results : List Record) : ∃ others, SameTiles tiles others ∧
      (readFrom (tiles.map (Tile.segment dir maxBytes syncLevel)) offset budget results).run world =
        (.ok (.ok (fetchAcross tiles offset budget results),
          others.map (Tile.segment dir maxBytes syncLevel)), world) := by
  induction tiles generalizing offset budget results with
  | nil => exact ⟨[], rfl, rfl⟩
  | cons tile rest ih =>
    have tail := fun budget results => ih (fun other member => onDisk other (by simp [member]))
      (fun other member => bounded other (by simp [member]))
        (fun other member => small other (by simp [member]))
      (nextTileBase rest offset) budget
      (by intro other head; simp only [Option.mem_def] at head; simp [nextTileBase, head]) results
    have base : nextBase (rest.map (Tile.segment dir maxBytes syncLevel)) offset =
        nextTileBase rest offset := by
      simp [nextBase, nextTileBase, Function.comp_def, Tile.segment]
    have smallTile := small tile (by simp)
    have offsets := (bounded tile (by simp)).offsets
    obtain ⟨cursor, ran⟩ := Segment.run_readBatch maxBytes syncLevel (onDisk tile (by simp))
      (bounded tile (by simp)) smallTile (low tile (by simp)) budget
    rw [List.map_cons, readFrom, fetchAcross]
    by_cases spent : budget = 0
    · exact ⟨tile :: rest, .refl _, by rw [if_pos spent, if_pos spent]; rfl⟩
    rw [if_neg spent, if_neg spent]
    cases shape : tile.messages.drop (offset - tile.baseOffset) with
    | nil =>
      obtain ⟨others, same, later⟩ := tail budget results
      rw [shape] at ran
      refine ⟨tile.moved cursor :: others, same.cons rfl, ?_⟩
      rw [Program.run_bind_of_run ran]
      simp only [fetched, numbered]
      rw [base, Program.run_bind_of_run later]
      rfl
    | cons message back =>
      have found : ∀ other ∈ message :: back, other ∈ tile.messages := by
        intro other member
        rw [← shape] at member
        exact List.mem_of_mem_drop member
      have taken : ∀ other ∈ message :: within (budget - message.size) back,
          other ∈ message :: back :=
        fun other member => (fetched_isPrefix budget (message :: back)).subset member
      have width : offset + (message :: within (budget - message.size) back).length < 2 ^ 64 := by
        have shorter := (fetched_isPrefix budget (message :: back)).length_le
        have length := congrArg List.length shape
        have below := low tile (by simp)
        rw [List.length_drop] at length
        simp only [fetched, List.length_cons] at shorter length ⊢
        unfold Tile.nextOffset at offsets
        omega
      have looped := run_takeRecords_fetched message (within (budget - message.size) back)
        (fun other member => smallTile other (found other (taken other member))) width
        (totalSize_within _ _) results world
      rw [shape] at ran
      rw [Program.run_bind_of_run ran]
      simp only [fetched]
      rw [numbered] at looped ⊢
      simp only
      rw [Program.run_bind_of_run looped]
      by_cases room : message.size ≤ budget
      · obtain ⟨others, same, later⟩ :=
          tail (budget - totalSize (message :: within (budget - message.size) back))
            (results ++ numbered offset (message :: within (budget - message.size) back))
        refine ⟨tile.moved cursor :: others, same.cons rfl, ?_⟩
        rw [numbered] at later
        rw [if_pos room, if_pos room]
        simp only
        rw [base, Program.run_bind_of_run later]
        rfl
      · refine ⟨tile.moved cursor :: rest, SameBlocks.cons (.refl rest) rfl, ?_⟩
        rw [if_neg room, if_neg room]
        rfl

/-- `read_batch` starts from the tile the offset falls into. -/
theorem run_readBatch
    (filed : Filed world partition.baseDir partition.maxSegmentBytes (front ++ tile :: back))
    (small : Small (contents (front ++ tile :: back))) (low : tile.baseOffset ≤ offset)
    (high : ∀ later ∈ back, offset < later.baseOffset) (maxBytes : Nat) :
    ∃ others, SameTiles (front ++ tile :: back) others ∧
      ((partition.withTiles (front ++ tile :: back)).readBatch offset maxBytes).run world =
        (.ok (.ok (fetchAcross (tile :: back) offset maxBytes []),
          partition.withTiles others), world) := by
  have inside : ∀ other ∈ tile :: back, other ∈ front ++ tile :: back :=
    fun other member => List.mem_append_right front member
  obtain ⟨others, same, ran⟩ :=
    run_readFrom partition.baseDir partition.maxSegmentBytes partition.syncLevel (tile :: back)
      (fun other member => filed.onDisk other (inside other member))
    (fun other member => filed.bounded other (inside other member))
    (fun other member => Filed.small_tile small (inside other member)) offset maxBytes
    (by simpa using low) []
  exact ⟨front ++ others, same.append_left front,
    run_readBatch_withBlocks (locate_withTiles filed low high) ran⟩

theorem fetchAcross_isPrefix (tiles : List Tile) (offset budget : Nat) (nonempty : results ≠ []) :
    results <+: fetchAcross tiles offset budget results := by
  induction tiles generalizing offset budget results with
  | nil => exact List.prefix_refl _
  | cons tile rest ih =>
    unfold fetchAcross
    split
    · exact List.prefix_refl _
    split
    · exact ih _ _ nonempty
    split
    · exact (List.prefix_append _ _).trans (ih _ _ (by simp [nonempty]))
    · simp

/-- Whatever a fetch returns is a record of one of the tiles. -/
theorem mem_fetchAcross (low : ∀ tile ∈ tiles.head?, tile.baseOffset ≤ offset)
    (member : record ∈ fetchAcross tiles offset budget results) :
    record ∈ results ∨ ∃ tile ∈ tiles, record ∈ tile.records := by
  induction tiles generalizing offset budget results with
  | nil => exact .inl member
  | cons tile rest ih =>
    have next : ∀ later ∈ rest.head?, later.baseOffset ≤ nextTileBase rest offset := by
      intro later head
      simp [nextTileBase, Option.mem_def.mp head]
    have inside :
        ∀ record ∈ numbered offset (fetched budget (tile.messages.drop (offset - tile.baseOffset))),
        record ∈ tile.records := by
      intro record found
      have below := low tile (by simp)
      obtain ⟨place, held⟩ := List.mem_iff_getElem?.mp found
      rw [numbered_getElem?] at held
      obtain ⟨message, there, rfl⟩ := Option.map_eq_some_iff.mp held
      obtain ⟨left, whole⟩ :=
        fetched_isPrefix budget (tile.messages.drop (offset - tile.baseOffset))
      have kept : (tile.messages.drop (offset - tile.baseOffset))[place]? = some message := by
        rw [← whole, List.getElem?_append_left (List.getElem?_eq_some_iff.mp there).1, there]
      rw [List.getElem?_drop] at kept
      refine List.mem_of_getElem? (i := offset - tile.baseOffset + place) ?_
      rw [Tile.records, numbered_getElem?, kept]
      simp only [Option.map_some, show tile.baseOffset + (offset - tile.baseOffset + place) =
        offset + place by omega]
    unfold fetchAcross at member
    split at member
    · exact .inl member
    split at member
    · rcases ih next member with before | ⟨other, found, held⟩
      · exact .inl before
      · exact .inr ⟨other, by simp [found], held⟩
    · rename_i message more shape
      rw [shape] at inside
      split at member
      · rcases ih next member with before | ⟨other, found, held⟩
        · rcases List.mem_append.mp before with earlier | taken
          · exact .inl earlier
          · exact .inr ⟨tile, by simp, inside record taken⟩
        · exact .inr ⟨other, by simp [found], held⟩
      · split at member
        · rw [List.mem_singleton.mp member]
          exact .inr ⟨tile, by simp, inside _ (by simp [numbered])⟩
        · exact .inl member

/-- A record of a tile is where its offset says. -/
theorem getElem?_contents (filed : Filed world dir limit tiles) (member : tile ∈ tiles)
    (found : record ∈ tile.records) :
    ∃ message ∈ (contents tiles)[record.offset]?, record = message.record record.offset := by
  obtain ⟨front, back, rfl⟩ := List.append_of_mem member
  have here := filed.tiled.base_eq
  obtain ⟨place, held⟩ := List.mem_iff_getElem?.mp found
  rw [Tile.records, numbered_getElem?] at held
  obtain ⟨message, there, rfl⟩ := Option.map_eq_some_iff.mp held
  refine ⟨message, ?_, rfl⟩
  have whole : contents (front ++ tile :: back) =
      contents front ++ (tile.messages ++ contents back) := by
    simp [contents]
  have inside := (List.getElem?_eq_some_iff.mp there).1
  have depth : (message.record (tile.baseOffset + place)).offset =
      (contents front).length + place := by
    simp only [Message.record, contents]
    omega
  rw [whole, depth, List.getElem?_append_right (Nat.le_add_right _ _), Nat.add_sub_cancel_left,
    List.getElem?_append_left inside, there]
  rfl

/-- A fetch with any budget at all starts with the record at its offset. -/
theorem fetchAcross_head (filed : Filed world dir limit (front ++ tile :: back))
    (low : tile.baseOffset ≤ offset) (high : ∀ later ∈ back, offset < later.baseOffset)
    (nonzero : maxBytes ≠ 0) (held : (contents (front ++ tile :: back))[offset]? = some message) :
    ∃ rest, fetchAcross (tile :: back) offset maxBytes [] = message.record offset :: rest := by
  have inside := filed.tiled.getElem?_floor low high
  rw [Nat.sub_zero] at inside
  have here : tile.messages[offset - tile.baseOffset]? = some message := inside.symm.trans held
  have shape : tile.messages.drop (offset - tile.baseOffset) =
      message :: tile.messages.drop (offset - tile.baseOffset + 1) := by
    obtain ⟨bound, equal⟩ := List.getElem?_eq_some_iff.mp here
    rw [List.drop_eq_getElem_cons bound, equal]
  rw [fetchAcross, if_neg nonzero, shape]
  simp only [fetched]
  split
  · rw [List.nil_append]
    obtain ⟨rest, whole⟩ := fetchAcross_isPrefix back (nextTileBase back offset) _
      (show numbered offset (message :: within (maxBytes - message.size) _) ≠ [] by simp [numbered])
    rw [← whole]
    exact ⟨_, rfl⟩
  · exact ⟨[], if_pos trivial⟩

theorem nextTileBase_le (apart : rest.Pairwise fun a b => a.nextOffset ≤ b.baseOffset) :
    ∀ later ∈ rest.tail, nextTileBase rest offset ≤ later.baseOffset := by
  cases rest with
  | nil => nofun
  | cons next rest =>
    exact fun later member =>
      Nat.le_trans (Nat.le_add_right _ _) ((List.pairwise_cons.mp apart).1 later member)

theorem le_nextTileBase (high : ∀ later ∈ rest, offset ≤ later.baseOffset) :
    offset ≤ nextTileBase rest offset := by
  cases rest with
  | nil => exact Nat.le_refl _
  | cons next rest => exact high next List.mem_cons_self

/-- What a fetch adds to its results goes on from its offset, also where it skips records. -/
theorem exists_onward_fetchAcross (apart : tiles.Pairwise fun a b => a.nextOffset ≤ b.baseOffset)
    (low : ∀ tile ∈ tiles.head?, tile.baseOffset ≤ offset)
    (high : ∀ later ∈ tiles.tail, offset ≤ later.baseOffset) (budget : Nat)
    (results : List Record) :
    ∃ more, fetchAcross tiles offset budget results = results ++ more ∧ Onward offset more := by
  induction tiles generalizing offset budget results with
  | nil => exact ⟨[], (List.append_nil _).symm, .nil offset⟩
  | cons tile rest ih =>
    obtain ⟨ahead, behind⟩ := List.pairwise_cons.mp apart
    have start : ∀ next ∈ rest.head?, next.baseOffset ≤ nextTileBase rest offset := by
      intro next head
      simp [nextTileBase, Option.mem_def.mp head]
    have later := ih behind start (nextTileBase_le behind)
    have beyond := le_nextTileBase high
    unfold fetchAcross
    split
    · exact ⟨[], (List.append_nil _).symm, .nil offset⟩
    split
    · obtain ⟨more, whole, onward⟩ := later budget results
      exact ⟨more, whole, onward.mono beyond⟩
    rename_i message taken shape
    split
    · obtain ⟨more, whole, onward⟩ := later (budget - totalSize (message :: taken))
        (results ++ numbered offset (message :: taken))
      refine ⟨numbered offset (message :: taken) ++ more, by rw [whole, List.append_assoc], ?_⟩
      refine (onward_numbered offset _).append onward beyond fun added record member => ?_
      -- the records of a tile end before the next one begins
      have inside := (fetched_isPrefix budget
        (tile.messages.drop (offset - tile.baseOffset))).length_le
      rw [shape, List.length_drop] at inside
      have bound := (numbered_offset_bounds member).2
      have below := low tile (by simp)
      cases rest with
      | nil => exact absurd (List.append_right_eq_self.mp whole.symm) added
      | cons next rest =>
        have start := ahead next List.mem_cons_self
        simp only [Tile.nextOffset, List.length_cons] at start inside bound
        simp only [nextTileBase, List.head?_cons, Option.map_some, Option.getD_some]
        omega
    · split
      · rename_i empty
        exact ⟨[message.record offset], by rw [empty, List.nil_append],
          onward_numbered offset [message]⟩
      · exact ⟨[], (List.append_nil _).symm, .nil offset⟩

theorem onward_fetchAcross
    (tiled : Tiled Tile.baseOffset Tile.messages tile.baseOffset (tile :: back))
    (low : tile.baseOffset ≤ offset) (high : ∀ later ∈ back, offset < later.baseOffset)
    (maxBytes : Nat) : Onward offset (fetchAcross (tile :: back) offset maxBytes []) := by
  obtain ⟨more, whole, onward⟩ := exists_onward_fetchAcross tiled.apart (by simpa using low)
    (fun later member => Nat.le_of_lt (high later member)) maxBytes []
  rwa [whole]

/-! ## Reads of any log -/

/-- Whatever the logs hold, a read leaves the disk alone and moves cursors only. -/
def Reads (program : Program (α × Partition)) (world : World) (partition : Partition)
    (tiles : List Tile) : Prop :=
  program.Ensures world True fun answer after => after = world ∧
    ∃ others, SameTiles tiles others ∧ answer.2 = partition.withTiles others

theorem reads_read (partition : Partition) (tiles : List Tile) (offset : Nat) (world : World) :
    Reads ((partition.withTiles tiles).read offset) world partition tiles := by
  unfold read
  split
  · exact Program.ensures_of_run rfl ⟨rfl, tiles, .refl _, rfl⟩
  rename_i position _
  split
  · exact Program.ensures_panic trivial
  rename_i segment found
  obtain ⟨tile, held, rfl⟩ : ∃ tile, tiles[position]? = some tile ∧
      tile.segment partition.baseDir partition.maxSegmentBytes partition.syncLevel = segment := by
    simpa [withBlocks] using found
  refine Program.ensures_bind ((Segment.reads_readAt _ offset).ensures world) ?_
  rintro ⟨answer, moved⟩ after ⟨rfl, cursor, rfl⟩
  refine Program.ensures_of_run rfl ⟨rfl, tiles.set position (tile.moved cursor), .set held rfl, ?_⟩
  simp only [withBlocks, List.map_set]
  rfl

private theorem takeRecords_ensures (records : List Record) (budget : Nat) (results : List Record)
    (world : World) : (takeRecords records budget results).Ensures world True fun _ after =>
      after = world := by
  induction records generalizing budget results with
  | nil => exact Program.ensures_of_run rfl rfl
  | cons record rest ih =>
    refine Program.ensures_bind_checked (fun _ => trivial) fun _ => ?_
    split
    · exact Program.ensures_bind_checked (fun _ => trivial) fun _ => ih _ _
    · split <;> exact Program.ensures_of_run rfl rfl

private theorem reads_readFrom (dir : Path) (maxBytes : Nat) (syncLevel : SyncLevel)
    (tiles : List Tile) (offset budget : Nat) (results : List Record) (world : World) :
    (readFrom (tiles.map (Tile.segment dir maxBytes syncLevel)) offset budget
      results).Ensures world True fun answer after => after = world ∧
      ∃ others, SameTiles tiles others ∧
        answer.2 = others.map (Tile.segment dir maxBytes syncLevel) := by
  induction tiles generalizing offset budget results with
  | nil => exact Program.ensures_of_run rfl ⟨rfl, [], rfl, rfl⟩
  | cons tile rest ih =>
    rw [List.map_cons, readFrom]
    split
    · exact Program.ensures_of_run rfl ⟨rfl, tile :: rest, .refl _, rfl⟩
    refine Program.ensures_bind ((Segment.reads_readBatch _ offset budget).ensures world) ?_
    rintro ⟨answer, moved⟩ after ⟨rfl, cursor, rfl⟩
    have go : ∀ budget results, (readFrom (rest.map (Tile.segment dir maxBytes syncLevel))
        (nextBase (rest.map (Tile.segment dir maxBytes syncLevel)) offset) budget
          results >>= fun result =>
          pure (result.1, (tile.moved cursor).segment dir maxBytes syncLevel ::
            result.2)).Ensures after True
        fun answer after' => after' = after ∧ ∃ others, SameTiles (tile :: rest) others ∧
          answer.2 = others.map (Tile.segment dir maxBytes syncLevel) := by
      intro budget results
      refine Program.ensures_bind (ih _ budget results) ?_
      rintro ⟨answer, segments⟩ later ⟨rfl, others, same, rfl⟩
      exact Program.ensures_of_run rfl ⟨rfl, tile.moved cursor :: others, same.cons rfl, rfl⟩
    have stop : ∀ answer : Except RukaError (List Record), (pure (answer,
        (tile.moved cursor).segment dir maxBytes syncLevel ::
          rest.map (Tile.segment dir maxBytes syncLevel)) :
          Program (Except RukaError (List Record) × List Segment)).Ensures after True
        fun answer after' => after' = after ∧ ∃ others, SameTiles (tile :: rest) others ∧
          answer.2 = others.map (Tile.segment dir maxBytes syncLevel) :=
      fun answer => Program.ensures_of_run rfl
        ⟨rfl, tile.moved cursor :: rest, SameBlocks.cons (.refl rest) rfl, rfl⟩
    cases answer with
    | error error => exact stop _
    | ok records =>
      cases records with
      | nil => exact go budget results
      | cons record records =>
        refine Program.ensures_bind (takeRecords_ensures _ budget results after) ?_
        rintro taken later rfl
        cases taken with
        | full results => exact stop _
        | more budget results => exact go budget results

theorem reads_readBatch (partition : Partition) (tiles : List Tile) (offset maxBytes : Nat)
    (world : World) :
    Reads ((partition.withTiles tiles).readBatch offset maxBytes) world partition tiles := by
  unfold readBatch
  split
  · exact Program.ensures_of_run rfl ⟨rfl, tiles, .refl _, rfl⟩
  rename_i position _
  have rest : (partition.withTiles tiles).segments.drop position = (tiles.drop position).map
      (Tile.segment partition.baseDir partition.maxSegmentBytes partition.syncLevel) := by
    simp [withBlocks, List.map_drop]
  rw [rest]
  refine Program.ensures_bind (reads_readFrom _ _ _ _ offset maxBytes [] world) ?_
  rintro ⟨answer, segments⟩ after ⟨rfl, others, same, rfl⟩
  refine Program.ensures_of_run rfl ⟨rfl, tiles.take position ++ others, ?_, ?_⟩
  · have whole := same.append_left (tiles.take position)
    rwa [List.take_append_drop] at whole
  · simp [withBlocks, List.map_take]

end Partition

end Ruka
