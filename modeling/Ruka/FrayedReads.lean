import Ruka.FrayedPartitions
import Ruka.LocalPartitions

/-! What an open partition on a machine that stops answers. A read finds the
offsets its indexes know, and what it finds is what the log holds there. -/
namespace Ruka
open BigEndian LexicalPaths FilePrograms FilePrograms.Cached DecimalNames SortedSearch TiledBlocks

namespace Patch
variable {patch : Patch} {path : Path}

/-- The index leads to the record at this offset. -/
def Knows (patch : Patch) (offset : Nat) : Prop := ∃ entry ∈ patch.known, entry.offset = offset

/-- The same patch after reads that left the cursor elsewhere. -/
def moved (patch : Patch) (cursor : Nat) : Patch :=
  ⟨patch.tile.moved cursor, patch.known, patch.sub⟩

private theorem sorted_known (patch : Patch) :
    patch.known.Pairwise (fun a b => a.offset < b.offset) :=
  (positions_sorted 0 patch.tile.baseOffset patch.tile.messages).sublist patch.sub

private theorem Knows.offset_lt (knows : patch.Knows offset) : offset < patch.tile.nextOffset := by
  obtain ⟨entry, member, rfl⟩ := knows
  exact (offset_bounds_of_mem_positions (patch.sub.subset member)).2

/-- Where the index knows an offset it points to the right place. -/
theorem lookup_known (knows : patch.Knows offset) :
    (Index.holding path patch.known).lookup offset =
      (Index.holding path patch.tile.entries).lookup offset := by
  obtain ⟨entry, member, rfl⟩ := knows
  have here : (Index.holding path patch.known).lookup entry.offset = some entry.position :=
    (Index.lookup_eq_some_iff patch.sorted_known).mpr member
  have there : (Index.holding path patch.tile.entries).lookup entry.offset = some entry.position :=
    (Index.lookup_eq_some_iff (positions_sorted 0 patch.tile.baseOffset patch.tile.messages)).mpr
      (patch.sub.subset member)
  rw [here, there]

private theorem lookup_unknown (unknown : ¬ patch.Knows offset) :
    (Index.holding path patch.known).lookup offset = none := by
  refine Option.eq_none_iff_forall_ne_some.mpr fun position found => unknown ?_
  have member : (⟨offset, position⟩ : IndexEntry) ∈ patch.known :=
    (Index.lookup_eq_some_iff patch.sorted_known).mp found
  exact ⟨_, member, rfl⟩

end Patch

namespace Segment
variable {world after : World} {segment moved : Segment} {index : Index}
  {patch : Patch} {dir : Path} {limit maxBytes : Nat} {level : SyncLevel}

/-- A batch read looks at the index once. -/
theorem run_readBatch_reindexed (same : index.lookup offset = segment.index.lookup offset)
    (ran : (segment.readBatch offset maxBytes).run world = (.ok (answer, moved), after)) :
    (({ segment with index := index } : Segment).readBatch offset maxBytes).run world =
      (.ok (answer, { moved with index := index }), after) := by
  unfold readBatch at ran ⊢
  simp only [same]
  split at ran
  · rename_i outside
    cases ran
    exact congrArg (fun program => Program.run program _) (if_pos outside)
  rename_i inside
  rw [if_neg inside]
  cases found : segment.index.lookup offset with
  | none =>
    rw [found] at ran
    cases ran
    rfl
  | some position =>
    rw [found] at ran
    obtain ⟨⟨reply, logFile⟩, middle, first, later⟩ := Program.exists_of_run_bind ran
    simp only
    rw [Program.run_bind_of_run first]
    cases reply with
    | error error =>
      cases later
      rfl
    | ok buf =>
      obtain ⟨records, between, second, last⟩ := Program.exists_of_run_bind later
      simp only
      rw [Program.run_bind_of_run second]
      split at last
      · rename_i empty
        rw [if_pos empty]
        obtain ⟨⟨whole, reached⟩, final, third, done⟩ := Program.exists_of_run_bind last
        rw [Program.run_bind_of_run third]
        rcases whole with error | (_ | record) <;> cases done <;> rfl
      · rename_i nonempty
        rw [if_neg nonempty]
        cases last
        rfl

theorem run_readAt_unknown (dir : Path) (limit : Nat) (level : SyncLevel)
    (unknown : ¬ patch.Knows offset) (world : World) :
    ((patch.segment dir limit level).readAt offset).run world =
      (.ok (.ok none, patch.segment dir limit level), world) := by
  have missing : (patch.segment dir limit level).index.lookup offset = none :=
    Patch.lookup_unknown unknown
  unfold readAt
  rw [missing]
  split <;> rfl

/-- `read_at` on a patch: nothing, or the record the log holds at the offset. -/
theorem run_readAt_patch (limit : Nat) (level : SyncLevel) (disk : patch.OnDisk world dir)
    (width : patch.tile.nextOffset < 2 ^ 64) (small : Small patch.tile.messages)
    (low : patch.tile.baseOffset ≤ offset) :
    ∃ cursor answer, ((patch.segment dir limit level).readAt offset).run world =
        (.ok (.ok answer, (patch.moved cursor).segment dir limit level), world) ∧
      (∀ record ∈ answer, ∃ message ∈ patch.tile.messages[offset - patch.tile.baseOffset]?,
        record = message.record offset) ∧ (patch.Knows offset → answer ≠ none) := by
  by_cases knows : patch.Knows offset
  · obtain ⟨front, message, back, shape, rfl⟩ := Tile.exists_split low knows.offset_lt
    have fits := Message.fits_record (small message (by simp [shape]))
      (Nat.lt_trans knows.offset_lt width)
    have log : world.file? (patch.segment dir limit level).logFile.path = _ := disk.log
    have found : (patch.segment dir limit level).index.lookup
        (patch.tile.baseOffset + front.length) = _ :=
      (Patch.lookup_known knows).trans (Tile.lookup_eq shape)
    have inside : ¬ (_ < (patch.tile.segment dir limit level).baseOffset ∨
      _ ≥ (patch.tile.segment dir limit level).nextOffset) := in_range shape
    rw [Tile.bytes_split shape] at log
    obtain ⟨cursor, ran⟩ := run_readAt_at log inside found fits
    refine ⟨cursor, _, ran, fun record held => ⟨message, by simp [shape], ?_⟩, fun _ => by simp⟩
    exact (Option.mem_some_iff.mp held).symm
  · exact ⟨patch.tile.cursor, none, run_readAt_unknown dir limit level knows world, nofun,
      fun known => absurd known knows⟩

end Segment

/-- What a batch read takes from a patch: records in a row from the offset on,
and at least one if the index knows the offset. -/
structure Patch.Takes (patch : Patch) (offset budget : Nat) (messages : List Message) : Prop where
  inside : messages ≠ [] → ∃ before rest, patch.tile.messages = before ++ (messages ++ rest) ∧
    offset = patch.tile.baseOffset + before.length
  fits : ∀ message more, messages = message :: more → totalSize more ≤ budget - message.size
  complete : patch.Knows offset → messages ≠ []

namespace Patch.Takes
variable {patch : Patch} {messages : List Message}

private theorem of_fetched (patch : Patch) (low : patch.tile.baseOffset ≤ offset) (budget : Nat) :
    patch.Takes offset budget (fetched budget
      (patch.tile.messages.drop (offset - patch.tile.baseOffset))) := by
  have whole := List.take_append_drop (offset - patch.tile.baseOffset) patch.tile.messages
  refine ⟨fun nonempty => ?_, fun message more shape => ?_, fun knows empty => ?_⟩
  · obtain ⟨rest, shape⟩ :=
      fetched_isPrefix budget (patch.tile.messages.drop (offset - patch.tile.baseOffset))
    refine ⟨patch.tile.messages.take (offset - patch.tile.baseOffset), rest,
      by rw [shape, whole], ?_⟩
    have inside : offset - patch.tile.baseOffset < patch.tile.messages.length := by
      refine Nat.lt_of_not_le fun beyond => nonempty ?_
      rw [List.drop_eq_nil_of_le beyond]
      rfl
    rw [List.length_take]
    omega
  · cases dropped : patch.tile.messages.drop (offset - patch.tile.baseOffset) with
    | nil =>
      rw [dropped] at shape
      cases shape
    | cons first back =>
      rw [dropped] at shape
      cases shape
      exact totalSize_within _ _
  · have below := knows.offset_lt
    unfold Tile.nextOffset at below
    have inside : offset - patch.tile.baseOffset < patch.tile.messages.length := by omega
    rw [List.drop_eq_getElem_cons inside] at empty
    cases empty

private theorem nothing (unknown : ¬ patch.Knows offset) (budget : Nat) :
    patch.Takes offset budget [] :=
  ⟨fun nonempty => absurd rfl nonempty, fun _ _ shape => absurd shape (by simp),
    fun knows => absurd knows unknown⟩

private theorem mem_records (takes : patch.Takes offset budget messages)
    (member : record ∈ numbered offset messages) : record ∈ patch.tile.records := by
  have nonempty : messages ≠ [] := by
    rintro rfl
    cases member
  obtain ⟨before, rest, shape, rfl⟩ := takes.inside nonempty
  rw [Tile.records, shape, numbered_append, numbered_append]
  exact List.mem_append_right _ (List.mem_append_left _ member)

private theorem length_le (takes : patch.Takes offset budget messages) (some : messages ≠ []) :
    offset + messages.length ≤ patch.tile.nextOffset := by
  obtain ⟨before, rest, shape, rfl⟩ := takes.inside some
  rw [Tile.nextOffset, shape, List.length_append, List.length_append]
  omega

private theorem small (takes : patch.Takes offset budget messages)
    (small : Small patch.tile.messages) : Small messages := by
  intro message member
  obtain ⟨before, rest, shape, -⟩ := takes.inside (List.ne_nil_of_mem member)
  refine small message ?_
  rw [shape]
  exact List.mem_append_right _ (List.mem_append_left _ member)

end Patch.Takes

/-- `read_batch` on a patch. -/
theorem Segment.run_readBatch_patch {patch : Patch} {world : World} {dir : Path} (limit : Nat)
    (level : SyncLevel) (disk : patch.OnDisk world dir) (bounded : patch.tile.Bounded limit)
    (small : Small patch.tile.messages) (low : patch.tile.baseOffset ≤ offset) (maxBytes : Nat) :
    ∃ cursor messages, ((patch.segment dir limit level).readBatch offset maxBytes).run world =
        (.ok (.ok (numbered offset messages),
          (patch.moved cursor).segment dir limit level), world) ∧
      patch.Takes offset maxBytes messages := by
  by_cases knows : patch.Knows offset
  · -- the read does not look at the index file, so that one may as well be complete
    have laid : patch.tile.OnDisk
        (world.put (indexPath dir patch.tile.baseOffset) (encodeEntries patch.tile.entries)) dir :=
      ⟨(World.file?_put_ne _ _ (logPath_ne_indexPath dir _ _)).trans disk.log,
        World.file?_put _ _ _⟩
    obtain ⟨cursor, ran⟩ := run_readBatch limit level laid bounded small low maxBytes
    have elsewhere := (reads_readBatch (patch.tile.segment dir limit level) offset maxBytes).run_eq
      (laid.log.trans disk.log.symm)
    rw [ran] at elsewhere
    exact ⟨cursor, _, run_readBatch_reindexed (Patch.lookup_known knows) elsewhere,
      .of_fetched patch low maxBytes⟩
  · have missing : (patch.segment dir limit level).index.lookup offset = none :=
      Patch.lookup_unknown knows
    refine ⟨patch.tile.cursor, [], ?_, .nothing knows maxBytes⟩
    unfold readBatch
    rw [missing]
    split <;> rfl

variable {lossy : Prop} {state after : Cached lossy} {dir : Path} {maxBytes : Nat} {ledger : Ledger}
  {patches others front back : List Patch} {patch : Patch}

/-- The same patches apart from the cursors of their logs. -/
abbrev SamePatches := SameBlocks (Patch.moved · 0)

private theorem SamePatches.sameLogs (same : SamePatches patches others) :
    SameLogs (patches.map Patch.tile) (others.map Patch.tile) := by
  have pairs : SameBlocks (fun patch : Patch => (patch.tile.baseOffset, patch.tile.messages))
      patches others :=
    same.coarsen (fun patch => (patch.tile.baseOffset, patch.tile.messages)) fun _ => rfl
  simpa [SameBlocks, Function.comp_def] using pairs

private theorem map_offset_positions (position : Nat) (records : List Record) :
    (positions position records).map IndexEntry.offset = records.map Record.offset := by
  induction records generalizing position with
  | nil => rfl
  | cons record rest ih => rw [positions, List.map_cons, ih, List.map_cons]

namespace Running

/-- Where the cursors stand makes no difference. -/
theorem moved (running : Running ledger state dir maxBytes patches)
    (same : SamePatches patches others) : Running ledger state dir maxBytes others := by
  refine ⟨running.frayed.of_sameLogs same.sameLogs, ?_, fun other member => ?_,
    fun other member => ?_⟩
  · rw [← running.log, logOf, same.sameLogs.contents, logOf]
  · obtain ⟨patch, found, twin⟩ := same.exists_twin member
    have disk := running.disk patch found
    have moved : (other.moved 0).OnDisk state.world dir := twin ▸ ⟨disk.log, disk.index⟩
    exact ⟨moved.log, moved.index⟩
  · obtain ⟨patch, found, twin⟩ := same.exists_twin member
    have indexes := running.found patch found
    have moved : (other.moved 0).tile.Indexes ledger.found (other.moved 0).known :=
      twin ▸ ⟨indexes.sub, indexes.kept⟩
    exact ⟨moved.sub, moved.kept⟩

/-- The patch an offset falls into. -/
theorem exists_floor (running : Running ledger state dir maxBytes patches) (offset : Nat) :
    ∃ front patch back, patches = front ++ patch :: back ∧ patch.tile.baseOffset ≤ offset ∧
      (∀ later ∈ back, offset < later.tile.baseOffset) ∧
      ledger.log[offset]? = patch.tile.messages[offset - patch.tile.baseOffset]?.map
        Message.content := by
  obtain ⟨frontTiles, tile, backTiles, shape, low, high⟩ :=
    running.frayed.tiled.exists_floor (Nat.zero_le offset)
  obtain ⟨front, rest, rfl, rfl, tail⟩ := List.map_eq_append_iff.mp shape
  obtain ⟨patch, back, rfl, rfl, rfl⟩ := List.map_eq_cons_iff.mp tail
  have tiled := running.frayed.tiled
  rw [shape] at tiled
  have inside := tiled.getElem?_floor low high
  rw [Nat.sub_zero] at inside
  refine ⟨front, patch, back, rfl, low,
    fun later member => high later.tile (List.mem_map_of_mem member), ?_⟩
  rw [← running.log, shape, logOf, List.getElem?_map]
  exact congrArg (Option.map Message.content) inside

/-- The patch knows the offsets the ledger has as found. -/
theorem knows (running : Running ledger state dir maxBytes patches) (member : patch ∈ patches)
    (low : patch.tile.baseOffset ≤ offset)
    (held : ledger.log[offset]? =
      patch.tile.messages[offset - patch.tile.baseOffset]?.map Message.content)
    (found : ledger.found offset) : patch.Knows offset := by
  have present := List.getElem?_eq_getElem (ledger.within offset found)
  rw [held] at present
  obtain ⟨message, there, -⟩ := Option.map_eq_some_iff.mp present
  have inside := (List.getElem?_eq_some_iff.mp there).1
  have listed : offset ∈ patch.tile.entries.map IndexEntry.offset := by
    rw [Tile.entries, map_offset_positions, Tile.records, map_offset_numbered, List.mem_range'_1]
    omega
  obtain ⟨entry, lies, rfl⟩ := List.mem_map.mp listed
  exact ⟨entry, (running.found patch member).kept entry lies found, rfl⟩

/-- A record of a patch is where its offset says. -/
theorem truthful (running : Running ledger state dir maxBytes patches) (member : patch ∈ patches)
    (held : record ∈ patch.tile.records) :
    ledger.log[record.offset]? = some (record.key, record.value) := by
  obtain ⟨front, back, rfl⟩ := List.append_of_mem member
  have tiled := running.frayed.tiled
  rw [List.map_append, List.map_cons] at tiled
  have base := tiled.base_eq
  have whole : contents ((front ++ patch :: back).map Patch.tile) =
      contents (front.map Patch.tile) ++
        (patch.tile.messages ++ contents (back.map Patch.tile)) := by
    simp [contents]
  obtain ⟨place, found⟩ := List.mem_iff_getElem?.mp held
  rw [Tile.records, numbered_getElem?] at found
  obtain ⟨message, there, rfl⟩ := Option.map_eq_some_iff.mp found
  have inside := (List.getElem?_eq_some_iff.mp there).1
  have depth : (message.record (patch.tile.baseOffset + place)).offset =
      (contents (front.map Patch.tile)).length + place := by
    simp only [Message.record, contents]
    omega
  rw [← running.log, logOf, List.getElem?_map, whole, depth,
    List.getElem?_append_right (Nat.le_add_right _ _), Nat.add_sub_cancel_left,
    List.getElem?_append_left inside, there]
  rfl

end Running

namespace Partition
variable {partition : Partition} {world : World}

/-- `read` returns nothing, or what the log holds at the offset. -/
theorem run_read_patches
    (running : Running ledger state partition.baseDir partition.maxSegmentBytes patches)
    (offset : Nat) : ∃ others answer, SamePatches patches others ∧
      ((partition.withPatches patches).read offset).run state.world =
        (.ok (.ok answer, partition.withPatches others), state.world) ∧
      (∀ record ∈ answer, record.offset = offset ∧
        ledger.log[offset]? = some (record.key, record.value)) ∧
      (ledger.found offset → answer ≠ none) := by
  obtain ⟨front, patch, back, rfl, low, high, held⟩ := running.exists_floor offset
  have member : patch ∈ front ++ patch :: back := by simp
  have listed : patch.tile ∈ (front ++ patch :: back).map Patch.tile := List.mem_map_of_mem member
  have sorted := List.pairwise_map.mp running.frayed.tiled.sorted
  obtain ⟨cursor, answer, ran, truthful, complete⟩ :=
    Segment.run_readAt_patch partition.maxSegmentBytes partition.syncLevel
      (running.disk patch member) (running.frayed.bounded _ listed).offsets
    (Filed.small_tile running.frayed.small listed) low
  refine ⟨front ++ patch.moved cursor :: back, answer,
    SameBlocks.append_left front (.cons (.refl back) rfl),
    run_read_withBlocks (locate_withBlocks sorted low high) ran, fun record found =>
      ?_, fun found => ?_⟩
  · obtain ⟨message, there, rfl⟩ := truthful record found
    rw [held, Option.mem_def.mp there]
    exact ⟨rfl, rfl⟩
  · exact complete (running.knows member low held found)

/-- What the segment loop of `read_batch` adds to its results: records of these
patches in the order of their offsets, and where the loop begins the one asked for
first if the index knows it. -/
structure Adds (patches : List Patch) (offset : Nat) (begins : Prop)
    (more : List Record) : Prop where
  listed : ∀ record ∈ more, ∃ patch ∈ patches, record ∈ patch.tile.records
  onward : Onward offset more
  first : begins → ∀ patch ∈ patches.head?, patch.Knows offset →
    ∃ record rest, more = record :: rest ∧ record.offset = offset

namespace Adds
variable {rest : List Patch} {begins goes : Prop} {more : List Record}

private theorem nothing (patches : List Patch) (offset : Nat) (ends : ¬ begins) :
    Adds patches offset begins [] :=
  ⟨nofun, .nil offset, fun begun => absurd begun ends⟩

private theorem skip (added : Adds rest next goes more) (unknown : ¬ patch.Knows offset)
    (beyond : offset ≤ next) : Adds (patch :: rest) offset begins more where
  listed := by
    intro record member
    obtain ⟨other, found, held⟩ := added.listed record member
    exact ⟨other, List.mem_cons_of_mem _ found, held⟩
  onward := added.onward.mono beyond
  first := by
    intro _ other head knows
    obtain rfl : patch = other := by simpa using head
    exact absurd knows unknown

private theorem take (takes : patch.Takes offset budget (message :: messages))
    (added : Adds rest next goes more) (beyond : offset ≤ next)
    (ahead : more ≠ [] → patch.tile.nextOffset ≤ next) :
    Adds (patch :: rest) offset begins (numbered offset (message :: messages) ++ more) where
  listed := by
    intro record member
    rcases List.mem_append.mp member with here | there
    · exact ⟨patch, List.mem_cons_self, takes.mem_records here⟩
    · obtain ⟨other, found, held⟩ := added.listed record there
      exact ⟨other, List.mem_cons_of_mem _ found, held⟩
  onward := by
    refine (onward_numbered offset _).append added.onward beyond fun behind record member => ?_
    have inside := takes.length_le (List.cons_ne_nil _ _)
    have start := ahead behind
    have bound := (numbered_offset_bounds member).2
    omega
  first := fun _ _ _ _ => ⟨_, _, rfl, rfl⟩

end Adds

/-- The segment loop of `read_batch` on patches. -/
theorem run_readFrom_patches (dir : Path) (limit : Nat) (level : SyncLevel) (patches : List Patch)
    (onDisk : ∀ patch ∈ patches, patch.OnDisk world dir)
    (bounded : ∀ patch ∈ patches, patch.tile.Bounded limit)
    (small : ∀ patch ∈ patches, Ruka.Small patch.tile.messages)
    (apart : (patches.map Patch.tile).Pairwise fun a b => a.nextOffset ≤ b.baseOffset)
    (offset budget : Nat) (low : ∀ patch ∈ patches.head?, patch.tile.baseOffset ≤ offset)
    (high : ∀ later ∈ (patches.map Patch.tile).tail, offset ≤ later.baseOffset)
    (results : List Record) : ∃ others more, SamePatches patches others ∧
      (readFrom (patches.map (Patch.segment dir limit level)) offset budget results).run world =
        (.ok (.ok (results ++ more), others.map (Patch.segment dir limit level)), world) ∧
      Adds patches offset (results = [] ∧ budget ≠ 0) more := by
  induction patches generalizing offset budget results with
  | nil => exact ⟨[], [], rfl, by rw [List.append_nil]; rfl, nofun, .nil offset, nofun⟩
  | cons patch rest ih =>
    rw [List.map_cons] at apart high
    obtain ⟨ahead, behind⟩ := List.pairwise_cons.mp apart
    have next : nextBase (rest.map (Patch.segment dir limit level)) offset =
        nextTileBase (rest.map Patch.tile) offset := by
      simp [nextBase, nextTileBase, Function.comp_def, Patch.segment, Tile.segment]
    have beyond : offset ≤ nextTileBase (rest.map Patch.tile) offset := le_nextTileBase high
    have start : ∀ other ∈ rest.head?,
        other.tile.baseOffset ≤ nextTileBase (rest.map Patch.tile) offset := by
      intro other head
      simp [nextTileBase, Option.mem_def.mp head]
    have tail := fun budget => ih (fun other member => onDisk other (by simp [member]))
      (fun other member => bounded other (by simp [member]))
        (fun other member => small other (by simp [member]))
      behind _ budget start (nextTileBase_le behind)
    have smallPatch := small patch (by simp)
    have offsets := (bounded patch (by simp)).offsets
    obtain ⟨cursor, messages, ran, takes⟩ :=
      Segment.run_readBatch_patch limit level (onDisk patch (by simp)) (bounded patch (by simp))
        smallPatch (low patch (by simp)) budget
    rw [List.map_cons, readFrom]
    by_cases spent : budget = 0
    · rw [if_pos spent]
      exact ⟨patch :: rest, [], .refl _, by rw [List.append_nil]; rfl,
        .nothing _ _ fun begins => begins.2 spent⟩
    rw [if_neg spent, Program.run_bind_of_run ran]
    cases messages with
    | nil =>
      obtain ⟨others, more, same, later, added⟩ := tail budget results
      refine ⟨patch.moved cursor :: others, more, same.cons rfl, ?_,
        added.skip (fun knows => takes.complete knows rfl) beyond⟩
      simp only [numbered]
      rw [next, Program.run_bind_of_run later]
      rfl
    | cons message more =>
      have inside := takes.length_le (List.cons_ne_nil message more)
      have looped := run_takeRecords_fetched message more (takes.small smallPatch)
        (Nat.lt_of_le_of_lt inside offsets) (takes.fits message more rfl) results world
      rw [numbered] at looped ⊢
      simp only
      rw [Program.run_bind_of_run looped]
      by_cases room : message.size ≤ budget
      · obtain ⟨others, added, same, later, adds⟩ := tail (budget - totalSize (message :: more))
          (results ++ numbered offset (message :: more))
        refine ⟨patch.moved cursor :: others, numbered offset (message :: more) ++ added,
          same.cons rfl, ?_, .take takes adds beyond fun some => ?_⟩
        · rw [if_pos room]
          simp only
          rw [numbered] at later
          rw [next, Program.run_bind_of_run later, List.append_assoc]
          rfl
        · -- only a patch that is there adds something
          obtain ⟨record, member⟩ := List.exists_mem_of_ne_nil added some
          obtain ⟨other, found, -⟩ := adds.listed record member
          cases rest with
          | nil => cases found
          | cons following rest => exact ahead following.tile List.mem_cons_self
      · rw [if_neg room]
        by_cases first : results = []
        · refine ⟨patch.moved cursor :: rest, [message.record offset],
            SameBlocks.cons (.refl rest) rfl, ?_, ?_⟩
          · rw [if_pos first, first]
            rfl
          · refine ⟨fun record member => ?_, onward_numbered offset [message],
              fun _ _ _ _ => ⟨_, _, rfl, rfl⟩⟩
            rw [List.mem_singleton.mp member]
            exact ⟨patch, List.mem_cons_self,
              takes.mem_records (by rw [numbered]; exact List.mem_cons_self)⟩
        · refine ⟨patch.moved cursor :: rest, [], SameBlocks.cons (.refl rest) rfl, ?_,
            .nothing _ _ fun begins => first begins.1⟩
          rw [if_neg first, List.append_nil]
          rfl

/-- `read_batch` returns records of the log, and the one asked for first. -/
theorem run_readBatch_patches
    (running : Running ledger state partition.baseDir partition.maxSegmentBytes patches)
    (offset maxBytes : Nat) : ∃ others records, SamePatches patches others ∧
      ((partition.withPatches patches).readBatch offset maxBytes).run state.world =
        (.ok (.ok records, partition.withPatches others), state.world) ∧
      (∀ record ∈ records, ledger.log[record.offset]? = some (record.key, record.value)) ∧
      Onward offset records ∧
      (maxBytes ≠ 0 → ledger.found offset → ∃ record rest, records = record :: rest ∧
        record.offset = offset) := by
  obtain ⟨front, patch, back, rfl, low, high, held⟩ := running.exists_floor offset
  have inside : ∀ other ∈ patch :: back, other ∈ front ++ patch :: back :=
    fun other member => List.mem_append_right front member
  have listed : ∀ other ∈ patch :: back, other.tile ∈ (front ++ patch :: back).map Patch.tile :=
    fun other member => List.mem_map_of_mem (inside other member)
  have sorted := List.pairwise_map.mp running.frayed.tiled.sorted
  have tiled := running.frayed.tiled
  rw [List.map_append, List.map_cons] at tiled
  obtain ⟨others, records, same, ran, adds⟩ := run_readFrom_patches partition.baseDir
    partition.maxSegmentBytes partition.syncLevel (patch :: back)
    (fun other member => running.disk other (inside other member))
    (fun other member => running.frayed.bounded _ (listed other member))
    (fun other member => Filed.small_tile running.frayed.small (listed other member))
      tiled.from_block.apart offset
    maxBytes (by simpa using low)
      (List.forall_mem_map.mpr fun later member => Nat.le_of_lt (high later member)) []
  rw [List.nil_append] at ran
  refine ⟨front ++ others, records, same.append_left front,
    run_readBatch_withBlocks (locate_withBlocks sorted low high) ran, fun record member =>
      ?_, adds.onward,
    fun nonzero found => ?_⟩
  · obtain ⟨other, member, held⟩ := adds.listed record member
    exact running.truthful (inside other member) held
  · exact adds.first ⟨rfl, nonzero⟩ patch rfl
      (running.knows (inside patch List.mem_cons_self) low held found)

private theorem silent_read (self : Partition) (offset : Nat) : (self.read offset).Silent :=
  (makes_read (fun _ _ any => any) (fun segment _ _ reads => ⟨segment.logFile.path, reads⟩) self
    (fun _ _ => trivial) offset).mono fun _ _ => trivial

private theorem silent_readBatch (self : Partition) (offset maxBytes : Nat) :
    (self.readBatch offset maxBytes).Silent :=
  (makes_readBatch (fun _ _ any => any) (fun segment _ _ reads => ⟨segment.logFile.path, reads⟩)
    self (fun _ _ => trivial) offset maxBytes).mono fun _ _ => trivial

end Partition

/-- A call on the ledger: an append grows it, and a read finds what it has to find. -/
inductive Ledger.Answers (ledger : Ledger) (limit : Nat) (synced : Prop) :
    Request → Answer → Ledger → Prop
  | appended (request : Request) (answer : Answer) (more : List Content) (writes : request.Writes)
      (taken : LogStep limit ledger.log request answer (ledger.log ++ more)) :
      Answers ledger limit synced request answer (ledger.grow more synced)
  | read (offset : Nat) (answer : Option Record)
      (truthful : ∀ record ∈ answer,
        record.offset = offset ∧ ledger.log[offset]? = some (record.key, record.value))
      (complete : ledger.found offset → answer ≠ none) :
      Answers ledger limit synced (.read offset) (.record (.ok answer)) ledger
  | fetched (offset maxBytes : Nat) (records : List Record)
      (truthful : ∀ record ∈ records, ledger.log[record.offset]? = some (record.key, record.value))
      (onward : Onward offset records)
      (first : maxBytes ≠ 0 → ledger.found offset →
        ∃ record rest, records = record :: rest ∧ record.offset = offset) :
      Answers ledger limit synced (.readBatch offset maxBytes) (.records (.ok records)) ledger

namespace Partition
variable {partition : Partition}

/-- What a call answers, and what a stop inside it leaves. -/
theorem weathers_serve (careful : lossy → partition.syncLevel ≠ .none)
    (running : Running ledger state partition.baseDir partition.maxSegmentBytes patches)
    (request : Request)
    (atEnd : ∀ last ∈ patches.getLast?,
      request.Lands partition.maxSegmentBytes last.tile.bytes.length → last.tile.AtEnd)
      (small : request.Small)
    (offsets : ledger.log.length + request.count < 2 ^ 64) :
    ((partition.withPatches patches).serve request).Weathers state
      (Recoverable lossy ledger.sure partition.baseDir partition.maxSegmentBytes ledger.log
        request.contents)
      fun reply after => ∃ later others,
        ledger.Answers partition.maxSegmentBytes (lossy → partition.syncLevel = .logAndIndex)
          request reply.1 later ∧ reply.2 = partition.withPatches others ∧
          Running later after partition.baseDir partition.maxSegmentBytes others := by
  have nonempty : patches ≠ [] := by simpa using running.frayed.tiled.nonempty
  obtain ⟨front, last, rfl⟩ : ∃ front last, patches = front ++ [last] :=
    ⟨_, _, (List.dropLast_append_getLast nonempty).symm⟩
  cases request with
  | append key value =>
    refine Program.weathers_bind
      (weathers_append careful running (atEnd last (by simp)) small offsets) ?_
    rintro ⟨result, self⟩ after safe (⟨rfl, large, others, rfl, grown⟩ | ⟨rfl, others, rfl, grown⟩)
    · refine Program.weathers_pure safe ⟨_, others, .appended _ _ [] trivial ?_, rfl, grown⟩
      rw [List.append_nil]
      exact .refused key value large
    · exact Program.weathers_pure safe ⟨_, others,
        .appended _ _ _ trivial (.appended key value), rfl, grown⟩
  | appendBatch payloads =>
    refine Program.weathers_bind
      (weathers_appendPayloads careful _ running payloads none (atEnd last (by simp)) small) ?_
    rintro ⟨result, self⟩ after safe ⟨taken, rest, rfl, ⟨others, rfl, grown⟩,
      ⟨rfl, rfl⟩ | ⟨rfl, large⟩⟩
    · refine Program.weathers_pure safe ⟨_, others, .appended _ _ _ trivial ?_, rfl, grown⟩
      rw [List.append_nil]
      exact .batchAppended taken
    · exact Program.weathers_pure safe
        ⟨_, others, .appended _ _ _ trivial (.batchRefused taken rest large), rfl, grown⟩
  | read offset =>
    obtain ⟨others, answer, same, ran, truthful, complete⟩ := run_read_patches running offset
    refine Program.weathers_bind_of_run ((silent_read _ offset).weathers
      (fun middle quiet => (running.quiet quiet).safe _) fun _ _ quiet _ _ => quiet) ran ?_
    intro after safe _ quiet
    exact Program.weathers_pure safe
      ⟨ledger, others, .read offset answer truthful complete, rfl, (running.quiet quiet).moved same⟩
  | readBatch offset maxBytes =>
    obtain ⟨others, records, same, ran, truthful, onward, first⟩ :=
      run_readBatch_patches running offset maxBytes
    refine Program.weathers_bind_of_run ((silent_readBatch _ offset maxBytes).weathers
      (fun middle quiet => (running.quiet quiet).safe _) fun _ _ quiet _ _ => quiet) ran ?_
    intro after safe _ quiet
    exact Program.weathers_pure safe
      ⟨ledger, others, .fetched offset maxBytes records truthful onward first, rfl,
        (running.quiet quiet).moved same⟩

end Partition

end Ruka
