import Ruka.FrayedSegments
import Ruka.LocalPrograms

/-! A partition on a machine that stops. Whatever the machine comes up with, the
logs of the partition can be read back without a gap; the open partition has them
whole, and for each offset it is known whether an index entry leads to it now and
whether one will after a stop. -/
namespace Ruka
open BigEndian LexicalPaths FilePrograms FilePrograms.Cached DecimalNames TiledBlocks

/-- What a partition is for on such a machine: an append-only list, the offsets
a read finds, and those it still finds after the machine has stopped. -/
@[ext] structure Ledger where
  log : List Content
  found : Nat → Prop
  sure : Nat → Prop
  sure_found : ∀ offset, sure offset → found offset
  within : ∀ offset, found offset → offset < log.length

namespace Ledger
variable {ledger : Ledger}

/-- More records at the end, which are sure if they are `synced`. -/
def grow (ledger : Ledger) (more : List Content) (synced : Prop) : Ledger where
  log := ledger.log ++ more
  found offset := ledger.found offset ∨
    ledger.log.length ≤ offset ∧ offset < ledger.log.length + more.length
  sure offset := ledger.sure offset ∨
    synced ∧ ledger.log.length ≤ offset ∧ offset < ledger.log.length + more.length
  sure_found offset held := held.imp (ledger.sure_found offset) And.right
  within offset held := by
    rw [List.length_append]
    rcases held with old | ⟨-, new⟩
    · exact Nat.lt_of_lt_of_le (ledger.within offset old) (Nat.le_add_right _ _)
    · exact new

private theorem grow_nil (ledger : Ledger) (synced : Prop) : ledger.grow [] synced = ledger := by
  ext offset
  · simp [grow]
  · simp [grow]
  · simp [grow]

private theorem grow_append (ledger : Ledger) (first second : List Content) (synced : Prop) :
    ledger.grow (first ++ second) synced = (ledger.grow first synced).grow second synced := by
  have both (offset : Nat) :
      ledger.log.length ≤ offset ∧ offset < ledger.log.length + (first ++ second).length ↔
      (ledger.log.length ≤ offset ∧ offset < ledger.log.length + first.length) ∨
        (ledger.log ++ first).length ≤ offset ∧
        offset < (ledger.log ++ first).length + second.length := by
    rw [List.length_append, List.length_append]
    omega
  ext offset
  · simp [grow]
  · simp only [grow, both, or_assoc]
  · simp only [grow, both, and_or_left, or_assoc]

end Ledger

variable {lossy : Prop} {state middle after : Cached lossy} {dir : Path} {maxBytes : Nat}
  {tiles others front : List Tile} {last tile : Tile} {sure : Nat → Prop} {log more : List Content}

/-- What is found of a partition, whatever the machine comes up with: tiles
without gaps whose files can be read back, and nothing else in the directory. -/
structure Frayed (sure : Nat → Prop) (state : Cached lossy) (dir : Path) (maxBytes : Nat)
    (tiles : List Tile) : Prop where
  tiled : Tiled Tile.baseOffset Tile.messages 0 tiles
  bounded : ∀ tile ∈ tiles, tile.Bounded maxBytes
  small : Small (contents tiles)
  directory : state.world.HasDirectory dir
  legible : ∀ tile ∈ tiles, tile.Legible sure state dir
  only : ∀ name, state.world.node (dir ++ [name]) ≠ none →
    ∃ tile ∈ tiles, name = logName tile.baseOffset ∨ name = indexName tile.baseOffset

/-- The files of two segments have different names. -/
theorem segment_paths_ne (dir : Path) {first second : Nat} (apart : first ≠ second) :
    logPath dir first ≠ logPath dir second ∧ indexPath dir first ≠ indexPath dir second :=
  ⟨fun same => apart (logName_injective (by simpa [logPath] using same)),
    fun same => apart (indexName_injective (by simpa [indexPath] using same))⟩

/-- Nor does a segment take the name of a directory above it. -/
theorem ancestor_ne_segment_paths {ancestor : Path} (above : ancestor <+: dir) (baseOffset : Nat) :
    ancestor ≠ logPath dir baseOffset ∧ ancestor ≠ indexPath dir baseOffset := by
  have length := above.length_le
  refine ⟨fun same => ?_, fun same => ?_⟩
  · rw [same] at length
    simp [logPath] at length
  · rw [same] at length
    simp [indexPath] at length

/-- The same files are as legible for a tile with another handle. -/
theorem Tile.Legible.of_twin {twin : Tile} (legible : twin.Legible sure state dir)
    (base : twin.baseOffset = tile.baseOffset) (messages : twin.messages = tile.messages) :
    tile.Legible sure state dir := by
  obtain ⟨log, logs, index, indexes⟩ := legible
  cases twin
  cases base
  cases messages
  exact ⟨log, logs, index, fun there data held => (indexes there data held).imp_right fun stays =>
    stays.imp_right fun ⟨known, shape, listed⟩ => ⟨known, shape, listed.sub, listed.kept⟩⟩

namespace Frayed

private theorem left (frayed : Frayed sure state dir maxBytes tiles)
    (left : ∀ path, Near dir path → state.Left after path) :
    Frayed sure after dir maxBytes tiles where
  tiled := frayed.tiled
  bounded := frayed.bounded
  small := frayed.small
  directory ancestor below above :=
    (left ancestor (.inl above)).directory.mpr (frayed.directory ancestor below above)
  legible tile member :=
    (frayed.legible tile member).of_left (left _ (.inr ⟨_, rfl⟩)) (left _ (.inr ⟨_, rfl⟩))
  only name present := frayed.only name fun absent =>
    present ((left _ (.inr ⟨name, rfl⟩)).absent.mpr absent)

theorem agrees (frayed : Frayed sure state dir maxBytes tiles) (agrees : Agrees dir state after) :
    Frayed sure after dir maxBytes tiles :=
  frayed.left fun path near => (agrees path near).left

theorem quiet (frayed : Frayed sure state dir maxBytes tiles) (quiet : state.Quiet after) :
    Frayed sure after dir maxBytes tiles :=
  frayed.agrees fun path _ => quiet path

theorem survives (frayed : Frayed sure state dir maxBytes tiles) {disk : World}
    (survives : state.Survives disk) : Frayed sure (settled lossy disk) dir maxBytes tiles :=
  frayed.left fun path _ => survives.left path

/-- How sure an offset is may be judged anew. -/
theorem judge (frayed : Frayed sure state dir maxBytes tiles) {other : Nat → Prop}
    (legible : ∀ tile ∈ tiles, tile.Legible other state dir) :
    Frayed other state dir maxBytes tiles :=
  ⟨frayed.tiled, frayed.bounded, frayed.small, frayed.directory, legible, frayed.only⟩

theorem of_imp (frayed : Frayed sure state dir maxBytes tiles) {fewer : Nat → Prop}
    (implies : ∀ offset, fewer offset → sure offset) : Frayed fewer state dir maxBytes tiles :=
  frayed.judge fun tile member => (frayed.legible tile member).of_imp fun _ _ => implies _

/-- How the logs were opened and moved makes no difference. -/
theorem of_sameLogs (frayed : Frayed sure state dir maxBytes tiles) (same : SameLogs tiles others) :
    Frayed sure state dir maxBytes others := by
  refine ⟨frayed.tiled.of_same same, same.bounded frayed.bounded, same.contents ▸ frayed.small,
    frayed.directory, fun other member => ?_, fun name present =>
      same.named (frayed.only name present)⟩
  obtain ⟨tile, found, base, messages⟩ := same.exists_tile member
  exact (frayed.legible tile found).of_twin base messages

/-- The files of one segment have changed. -/
theorem replaced (frayed : Frayed sure state dir maxBytes tiles)
    (tiled : Tiled Tile.baseOffset Tile.messages 0 others)
    (bounded : ∀ other ∈ others, other.Bounded maxBytes) (small : Small (contents others))
    (legible : tile.Legible sure after dir)
    (apart : ∀ probe, probe ≠ logPath dir tile.baseOffset → probe ≠ indexPath dir tile.baseOffset →
      state.Left after probe) (member : tile ∈ others)
    (each : ∀ other ∈ others, other = tile ∨ other ∈ tiles ∧ other.baseOffset ≠ tile.baseOffset)
    (covers : ∀ other ∈ tiles, other ∈ others ∨ other.baseOffset = tile.baseOffset) :
    Frayed sure after dir maxBytes others where
  tiled := tiled
  bounded := bounded
  small := small
  directory ancestor below above :=
    (apart ancestor (ancestor_ne_segment_paths above _).1
      (ancestor_ne_segment_paths above _).2).directory.mpr (frayed.directory ancestor below above)
  legible other listed := by
    rcases each other listed with rfl | ⟨old, bases⟩
    · exact legible
    · obtain ⟨logs, indexes⟩ := segment_paths_ne dir bases
      exact (frayed.legible other old).of_left (apart _ logs (logPath_ne_indexPath dir _ _))
        (apart _ (Ne.symm (logPath_ne_indexPath dir _ _)) indexes)
  only name present := by
    by_cases isLog : dir ++ [name] = logPath dir tile.baseOffset
    · exact ⟨tile, member, .inl (by simpa [logPath] using isLog)⟩
    by_cases isIndex : dir ++ [name] = indexPath dir tile.baseOffset
    · exact ⟨tile, member, .inr (by simpa [indexPath] using isIndex)⟩
    obtain ⟨other, old, named⟩ :=
      frayed.only name fun absent => present ((apart _ isLog isIndex).absent.mpr absent)
    rcases covers other old with still | base
    · exact ⟨other, still, named⟩
    · rw [base] at named
      exact ⟨tile, member, named⟩

private theorem nextOffset_eq (frayed : Frayed sure state dir maxBytes (front ++ [last])) :
    last.nextOffset = (contents (front ++ [last])).length := by
  have ending := frayed.tiled.last_end
  rw [Nat.zero_add] at ending
  exact ending

/-- No entry lies behind the end of the log. -/
theorem entry_lt (frayed : Frayed sure state dir maxBytes tiles) (member : tile ∈ tiles)
    (listed : entry ∈ tile.entries) : entry.offset < (contents tiles).length := by
  obtain ⟨front, back, rfl⟩ := List.append_of_mem member
  have base := frayed.tiled.base_eq
  have bound := (offset_bounds_of_mem_positions listed).2
  simp only [contents, List.flatMap_append, List.flatMap_cons, List.length_append] at base ⊢
  omega

/-- The last tile with more messages. -/
theorem extend (frayed : Frayed sure state dir maxBytes (front ++ [last])) {more : List Message}
    (bounded : (last.extend more).Bounded maxBytes) (small : Small more)
    (apart : ∀ probe, probe ≠ logPath dir last.baseOffset → probe ≠ indexPath dir last.baseOffset →
      state.Left after probe)
    (legible : (last.extend more).Legible sure after dir) :
    Frayed sure after dir maxBytes (front ++ [last.extend more]) := by
  refine frayed.replaced (frayed.tiled.replace_last rfl) (fun other member => ?_) ?_ legible apart
    (by simp) (fun other member => ?_) fun other member => ?_
  · rcases List.mem_append.mp member with inFront | isLast
    · exact frayed.bounded other (by simp [inFront])
    · rw [List.mem_singleton.mp isLast]
      exact bounded
  · rw [contents_extend]
    exact frayed.small.append small
  · rcases List.mem_append.mp member with inFront | isLast
    · have below := (List.pairwise_append.mp frayed.tiled.sorted).2.2 other inFront last (by simp)
      exact .inr ⟨by simp [inFront], Nat.ne_of_lt below⟩
    · exact .inl (List.mem_singleton.mp isLast)
  · rcases List.mem_append.mp member with inFront | isLast
    · exact .inl (by simp [inFront])
    · rw [List.mem_singleton.mp isLast]
      exact .inr rfl

private theorem base_lt_nextOffset (frayed : Frayed sure state dir maxBytes (front ++ [last]))
    (held : last.messages ≠ []) (member : tile ∈ front ++ [last]) :
    tile.baseOffset < last.nextOffset := by
  have positive := List.length_pos_iff.mpr held
  unfold Tile.nextOffset
  rcases List.mem_append.mp member with inFront | isLast
  · have below := (List.pairwise_append.mp frayed.tiled.sorted).2.2 tile inFront last (by simp)
    omega
  · rw [List.mem_singleton.mp isLast]
    omega

/-- The names of the next segment are not taken. -/
theorem free_next (frayed : Frayed sure state dir maxBytes (front ++ [last]))
    (held : last.messages ≠ []) : state.world.node (logPath dir last.nextOffset) = none ∧
      state.world.node (indexPath dir last.nextOffset) = none := by
  refine ⟨Classical.byContradiction fun taken => ?_, Classical.byContradiction fun taken => ?_⟩
  · obtain ⟨tile, member, log | index⟩ := frayed.only _ taken
    · exact absurd (logName_injective log) (Nat.ne_of_gt (frayed.base_lt_nextOffset held member))
    · exact logName_ne_indexName _ _ index
  · obtain ⟨tile, member, log | index⟩ := frayed.only _ taken
    · exact logName_ne_indexName _ _ log.symm
    · exact absurd (indexName_injective index)
        (Nat.ne_of_gt (frayed.base_lt_nextOffset held member))

/-- A new tile behind the last one. -/
theorem rotate (frayed : Frayed sure state dir maxBytes (front ++ [last]))
    (held : last.messages ≠ [])
    (touched : (Tile.fresh last.nextOffset).Touched sure dir state after) :
    Frayed sure after dir maxBytes (front ++ [last] ++ [Tile.fresh last.nextOffset]) := by
  refine frayed.replaced (frayed.tiled.snoc held rfl) (fun other member => ?_) ?_ touched.legible
    (fun probe notLog notIndex => (touched.others probe notLog notIndex).left) (by simp)
    (fun other member => ?_) fun other member => .inl (List.mem_append_left _ member)
  · rcases List.mem_append.mp member with before | isFresh
    · exact frayed.bounded other before
    · have offsets := (frayed.bounded last (by simp)).offsets
      rw [List.mem_singleton.mp isFresh]
      exact ⟨Nat.zero_le _, Nat.two_pow_pos 64,
        by simpa [Tile.nextOffset, Tile.fresh] using offsets⟩
  · rw [contents_fresh]
    exact frayed.small
  · rcases List.mem_append.mp member with before | isFresh
    · exact .inr ⟨before, Nat.ne_of_lt (frayed.base_lt_nextOffset held before)⟩
    · exact .inl (List.mem_singleton.mp isFresh)

/-- A tile that is still there. -/
theorem touched (frayed : Frayed sure state dir maxBytes tiles) (member : tile ∈ tiles)
    (touched : tile.Touched sure dir state after) : Frayed sure after dir maxBytes tiles := by
  refine frayed.replaced frayed.tiled frayed.bounded frayed.small touched.legible
    (fun probe notLog notIndex => (touched.others probe notLog notIndex).left) member
    (fun other listed => ?_) fun other listed => .inl listed
  by_cases same : other.baseOffset = tile.baseOffset
  · refine .inl ?_
    rw [← Partition.tileAt_eq frayed.tiled.sorted listed, same,
      Partition.tileAt_eq frayed.tiled.sorted member]
  · exact .inr ⟨listed, same⟩

end Frayed

/-- The disk holds this log, and perhaps the first of some more records. -/
def Recoverable (lossy : Prop) (sure : Nat → Prop) (dir : Path) (maxBytes : Nat)
    (log more : List Content) (disk : World) : Prop :=
  ∃ tiles, Frayed sure (settled lossy disk) dir maxBytes tiles ∧ log <+: logOf tiles ∧
    logOf tiles <+: log ++ more

private theorem Recoverable.mono {disk : World} {grown rest : List Content} {fewer : Nat → Prop}
    (recoverable : Recoverable lossy sure dir maxBytes grown rest disk)
    (implies : ∀ offset, fewer offset → sure offset) (low : log <+: grown)
    (high : grown ++ rest <+: log ++ more) :
    Recoverable lossy fewer dir maxBytes log more disk := by
  obtain ⟨tiles, frayed, held, bound⟩ := recoverable
  exact ⟨tiles, frayed.of_imp implies, low.trans held, bound.trans high⟩

namespace Frayed
variable {patch : Patch}

private theorem safe (frayed : Frayed sure state dir maxBytes tiles) (low : log <+: logOf tiles)
    (high : logOf tiles <+: log ++ more) :
    state.Safe (Recoverable lossy sure dir maxBytes log more) :=
  fun _ survives => ⟨tiles, frayed.survives survives, low, high⟩

private theorem bounded_part (bounded : (last.extend (first ++ second)).Bounded maxBytes) :
    (last.extend first).Bounded maxBytes := by
  obtain ⟨size, width, offsets⟩ := bounded
  rw [Tile.bytes_extend, numbered_append, encodeAll_append, List.length_append,
    List.length_append] at size width
  rw [Tile.nextOffset_extend, List.length_append] at offsets
  refine ⟨?_, ?_, ?_⟩
  · rw [Tile.bytes_extend, List.length_append]
    omega
  · rw [Tile.bytes_extend, List.length_append]
    omega
  · rw [Tile.nextOffset_extend]
    omega

/-- The log write cut anywhere, and whatever of it is lost: what comes up is the
log with the first of the new messages. -/
theorem safe_log (frayed : Frayed sure state dir maxBytes (front ++ [last]))
    {messages : List Message} (bounded : (last.extend messages).Bounded maxBytes)
    (small : Small messages) (bound : ∀ offset, sure offset → offset < last.nextOffset)
    (low : log <+: logOf (front ++ [last]))
    (high : logOf (front ++ [last]) ++ messages.map Message.content <+: log ++ more)
    (turns : Turns (logPath dir last.baseOffset)
      (fun data => ∃ whole, whole <+: messages ∧ (last.extend whole).LogLeft data) state middle) :
    middle.Safe (Recoverable lossy sure dir maxBytes log more) := by
  intro disk survives
  obtain ⟨now, held⟩ := Option.ne_none_iff_exists'.mp turns.file
  obtain ⟨data, found, possible⟩ := survives.file _ _ held
  obtain ⟨whole, ⟨rest, rfl⟩, logLeft⟩ := turns.may data possible
  have left (probe : Path) (other : probe ≠ logPath dir last.baseOffset) :
      state.Left (settled lossy disk) probe :=
    (turns.others probe other).left.trans (survives.left probe)
  have indexLeft := left _ (Ne.symm (logPath_ne_indexPath dir last.baseOffset last.baseOffset))
  have legible := frayed.legible last (by simp)
  have smallWhole : Small whole := fun message member =>
    small message (List.mem_append_left _ member)
  refine ⟨_, frayed.extend (bounded_part bounded) smallWhole
    (fun probe notLog _ => left probe notLog) ⟨?_, fun other there => ?_, ?_,
      fun there other listed => ?_⟩, ?_, ?_⟩
  · exact Option.ne_none_iff_exists'.mpr ⟨data, found⟩
  · obtain rfl : data = other := Option.some.inj (found.symm.trans there)
    exact logLeft
  · exact fun taken => legible.index (indexLeft.directory.mp taken)
  · exact (legible.indexes (indexLeft.of_file? there) other
      (indexLeft.may other listed)).extend bound whole
  · rw [logOf_extend]
    exact low.trans (List.prefix_append _ _)
  · rw [logOf_extend]
    rw [List.map_append, ← List.append_assoc] at high
    exact (List.prefix_append _ _).trans high

private theorem sheltered (frayed : Frayed sure state dir maxBytes (front ++ [patch.tile]))
    {messages : List Message} (bounded : (patch.tile.extend messages).Bounded maxBytes)
    (small : Small messages) (bound : ∀ offset, sure offset → offset < patch.tile.nextOffset)
    (low : log <+: logOf (front ++ [patch.tile]))
    (high : logOf (front ++ [patch.tile]) ++ messages.map Message.content <+: log ++ more) :
    patch.Sheltered sure (Recoverable lossy sure dir maxBytes log more) state dir messages := by
  refine ⟨fun middle turns => frayed.safe_log bounded small bound low high turns,
    fun middle touched => ?_⟩
  have whole := frayed.extend bounded small
    (fun probe notLog notIndex => (touched.others probe notLog notIndex).left) touched.legible
  refine whole.safe ?_ ?_
  · rw [logOf_extend]
    exact low.trans (List.prefix_append _ _)
  · rw [logOf_extend]
    exact high

end Frayed

/-- The files of a patch when those of another segment have changed. -/
theorem Patch.OnDisk.agrees {patch : Patch} (disk : patch.OnDisk state.world dir)
    (agrees : Agrees dir state after) : patch.OnDisk after.world dir :=
  ⟨(agrees _ (.inr ⟨_, rfl⟩)).file?_eq.trans disk.log,
    (agrees _ (.inr ⟨_, rfl⟩)).file?_eq.trans disk.index⟩

theorem Patch.OnDisk.only {patch : Patch} (disk : patch.OnDisk state.world dir)
    (only : OnlyAt dir baseOffset state after) (apart : patch.tile.baseOffset ≠ baseOffset) :
    patch.OnDisk after.world dir := by
  obtain ⟨logs, indexes⟩ := segment_paths_ne dir apart
  refine ⟨?_, ?_⟩
  · rw [(only _ logs (logPath_ne_indexPath dir _ _)).file?_eq]
    exact disk.log
  · rw [(only _ (Ne.symm (logPath_ne_indexPath dir _ _)) indexes).file?_eq]
    exact disk.index

/-- The patches of an open partition and its disk stand for this ledger. -/
structure Running (ledger : Ledger) (state : Cached lossy) (dir : Path) (maxBytes : Nat)
    (patches : List Patch) : Prop where
  frayed : Frayed ledger.sure state dir maxBytes (patches.map Patch.tile)
  log : logOf (patches.map Patch.tile) = ledger.log
  disk : ∀ patch ∈ patches, patch.OnDisk state.world dir
  found : ∀ patch ∈ patches, patch.tile.Indexes ledger.found patch.known

namespace Running
variable {ledger : Ledger} {patches front : List Patch} {patch last : Patch} {level : SyncLevel}

theorem agrees (running : Running ledger state dir maxBytes patches)
    (agrees : Agrees dir state after) : Running ledger after dir maxBytes patches :=
  ⟨running.frayed.agrees agrees, running.log,
    fun patch member => (running.disk patch member).agrees agrees, running.found⟩

theorem quiet (running : Running ledger state dir maxBytes patches) (quiet : state.Quiet after) :
    Running ledger after dir maxBytes patches :=
  running.agrees fun path _ => quiet path

private theorem mounted (running : Running ledger state dir maxBytes patches)
    (member : patch ∈ patches) : patch.Mounted ledger.sure state dir maxBytes where
  disk := running.disk patch member
  legible := running.frayed.legible _ (List.mem_map_of_mem member)
  indexes := (running.found patch member).of_imp fun _ _ => ledger.sure_found _
  bounded := running.frayed.bounded _ (List.mem_map_of_mem member)

private theorem frayed_last (running : Running ledger state dir maxBytes (front ++ [last])) :
    Frayed ledger.sure state dir maxBytes (front.map Patch.tile ++ [last.tile]) := by
  have frayed := running.frayed
  rwa [List.map_append, List.map_singleton] at frayed

private theorem log_last (running : Running ledger state dir maxBytes (front ++ [last])) :
    logOf (front.map Patch.tile ++ [last.tile]) = ledger.log := by
  have log := running.log
  rwa [List.map_append, List.map_singleton] at log

theorem nextOffset_eq (running : Running ledger state dir maxBytes (front ++ [last])) :
    last.tile.nextOffset = ledger.log.length := by
  rw [running.frayed_last.nextOffset_eq, ← running.log_last, length_logOf]

private theorem bound (running : Running ledger state dir maxBytes (front ++ [last])) :
    ∀ offset, ledger.sure offset → offset < last.tile.nextOffset := by
  intro offset held
  rw [running.nextOffset_eq]
  exact ledger.within offset (ledger.sure_found offset held)

theorem safe (running : Running ledger state dir maxBytes patches) (more : List Content) :
    state.Safe (Recoverable lossy ledger.sure dir maxBytes ledger.log more) :=
  running.frayed.safe (by rw [running.log]) (by rw [running.log]; exact List.prefix_append _ _)

/-- An offset that is new to the ledger is new to every patch. -/
theorem old_of_entry (running : Running ledger state dir maxBytes patches)
    (member : patch ∈ patches) (listed : entry ∈ patch.tile.entries) {beyond : Nat}
    {holds : Nat → Prop}
    (held : holds entry.offset ∨ ledger.log.length ≤ entry.offset ∧ entry.offset < beyond) :
    holds entry.offset := by
  have below := running.frayed.entry_lt (List.mem_map_of_mem member) listed
  rw [← length_logOf, running.log] at below
  rcases held with old | ⟨above, -⟩
  · exact old
  · omega

/-- What writing more messages to the active segment leaves. -/
theorem extend (running : Running ledger state dir maxBytes (front ++ [last]))
    {messages : List Message} (bounded : (last.tile.extend messages).Bounded maxBytes)
    (small : Small messages) (stored : last.Stored ledger.sure level dir messages state after) :
    Running (ledger.grow (messages.map Message.content) (lossy → level = .logAndIndex))
      after dir maxBytes (front ++ [last.extend messages]) := by
  have frayed := running.frayed_last.extend bounded small
    (fun probe notLog notIndex => (stored.touched.others probe notLog notIndex).left)
      stored.touched.legible
  have legible := stored.touched.legible
  have isLast : last ∈ front ++ [last] := by simp
  -- the new entries are behind the old ones, so each offset is where it was
  have indexes : (last.tile.extend messages).Indexes
      (ledger.grow (messages.map Message.content) (lossy → level = .logAndIndex)).found
        (last.extend messages).known := by
    refine ⟨(last.extend messages).sub, fun entry listed held => ?_⟩
    rw [Tile.entries_extend] at listed
    rcases List.mem_append.mp listed with before | added
    · exact List.mem_append_left _ ((running.found last isLast).kept entry before
        (running.old_of_entry isLast before held))
    · exact List.mem_append_right _ added
  refine ⟨?_, ?_, fun patch member => ?_, fun patch member => ?_⟩
  · rw [List.map_append]
    refine frayed.judge fun tile member => ?_
    rcases List.mem_append.mp member with inFront | atEnd
    · obtain ⟨patch, found, rfl⟩ := List.mem_map.mp inFront
      exact (frayed.legible _ member).of_imp fun entry listed held =>
        running.old_of_entry (List.mem_append_left _ found) listed (held.imp_right And.right)
    · rw [List.mem_singleton.mp atEnd]
      refine ⟨legible.log, legible.logs, legible.index, fun there data held => ?_⟩
      by_cases synced : lossy → level = .logAndIndex
      · exact .inr (.inr ⟨_, stored.synced synced data held,
          indexes.of_imp fun _ _ => Ledger.sure_found _ _⟩)
      · exact (legible.indexes there data held).of_imp fun _ _ sure =>
          sure.resolve_right fun new => synced new.1
  · rw [List.map_append]
    exact (logOf_extend _ last.tile messages).trans (by rw [running.log_last]; rfl)
  · rcases List.mem_append.mp member with inFront | atEnd
    · have below := (List.pairwise_append.mp running.frayed_last.tiled.sorted).2.2 patch.tile
        (List.mem_map_of_mem inFront) last.tile (by simp)
      exact (running.disk patch (List.mem_append_left _ inFront)).only stored.touched.others
        (Nat.ne_of_lt below)
    · rw [List.mem_singleton.mp atEnd]
      exact stored.disk
  · rcases List.mem_append.mp member with inFront | atEnd
    · have old := List.mem_append_left [last] inFront
      exact (running.found patch old).of_imp fun entry listed held =>
        running.old_of_entry old listed held
    · rw [List.mem_singleton.mp atEnd]
      exact indexes

/-- What a rotation leaves. -/
theorem rotate (running : Running ledger state dir maxBytes (front ++ [last]))
    (held : last.tile.messages ≠ []) (only : OnlyAt dir last.tile.nextOffset state after)
    (mounted : (Patch.fresh last.tile.nextOffset).Mounted ledger.sure after dir maxBytes) :
    Running ledger after dir maxBytes (front ++ [last] ++ [Patch.fresh last.tile.nextOffset]) := by
  have grown := running.frayed_last.rotate held ⟨only, mounted.legible⟩
  have log := running.log_last
  rw [← logOf_fresh _ last.tile.nextOffset] at log
  refine ⟨?_, ?_, fun patch member => ?_, fun patch member => ?_⟩
  · rw [List.map_append, List.map_append]
    exact grown
  · rw [List.map_append, List.map_append]
    exact log
  · rcases List.mem_append.mp member with before | isFresh
    · have listed : patch.tile ∈ front.map Patch.tile ++ [last.tile] := by
        simpa only [List.map_append, List.map_singleton] using List.mem_map_of_mem
          (f := Patch.tile) before
      exact (running.disk patch before).only only
        (Nat.ne_of_lt (running.frayed_last.base_lt_nextOffset held listed))
    · rw [List.mem_singleton.mp isFresh]
      exact mounted.disk
  · rcases List.mem_append.mp member with before | isFresh
    · exact running.found patch before
    · rw [List.mem_singleton.mp isFresh]
      exact ⟨List.Sublist.refl _, fun _ listed => absurd listed List.not_mem_nil⟩

end Running

namespace Partition
variable {partition : Partition} {ledger : Ledger} {patches front : List Patch} {patch last : Patch}
  {crash : World → Prop}

/-- The partition with these patches as its segments. -/
abbrev withPatches (partition : Partition) (patches : List Patch) : Partition :=
  partition.withBlocks Patch.segment patches

private theorem nextOffset_withPatches (partition : Partition) (front : List Patch) (last : Patch) :
    (partition.withPatches (front ++ [last])).nextOffset = last.tile.nextOffset :=
  nextOffset_withBlocks partition front last

theorem nextOffset_running (partition : Partition)
    (running : Running ledger state dir maxBytes patches) :
    (partition.withPatches patches).nextOffset = ledger.log.length := by
  have nonempty : patches ≠ [] := by simpa using running.frayed.tiled.nonempty
  obtain ⟨front, last, rfl⟩ : ∃ front last, patches = front ++ [last] :=
    ⟨_, _, (List.dropLast_append_getLast nonempty).symm⟩
  rw [nextOffset_withPatches, running.nextOffset_eq]

private theorem weathers_onActive (partition : Partition) (front : List Patch) (last : Patch)
    (operation : Segment → Program (α × Segment)) {post : α × Segment → Cached lossy → Prop}
    (holds : (operation (last.segment partition.baseDir partition.maxSegmentBytes
      partition.syncLevel)).Weathers state crash post) :
    ((partition.withPatches (front ++ [last])).onActive operation).Weathers state crash
      fun reply after =>
      ∃ answer active, reply = (answer, active,
        (partition.withPatches (front ++ [last])).setActive active) ∧
        post (answer, active) after := by
  unfold onActive
  rw [getLast?_withBlocks]
  exact Program.weathers_bind holds fun reply after safe met =>
    Program.weathers_pure safe ⟨_, _, rfl, met⟩

/-- A rotation: until the new log is there, nothing has happened. -/
theorem weathers_rotate
    (running : Running ledger state partition.baseDir partition.maxSegmentBytes (front ++ [last]))
    (held : last.tile.messages ≠ []) (more : List Content) :
    ((partition.withPatches (front ++ [last])).rotate
        (last.segment partition.baseDir partition.maxSegmentBytes
          partition.syncLevel)).Weathers state
      (Recoverable lossy ledger.sure partition.baseDir partition.maxSegmentBytes ledger.log more)
      fun reply after =>
        reply = (.ok (), partition.withPatches
          (front ++ [last] ++ [Patch.fresh last.tile.nextOffset])) ∧
          Running ledger after partition.baseDir partition.maxSegmentBytes
            (front ++ [last] ++ [Patch.fresh last.tile.nextOffset]) := by
  have frayed := running.frayed_last
  obtain ⟨freeLog, freeIndex⟩ := frayed.free_next held
  have width := (frayed.bounded last.tile (by simp)).offsets
  have created : (Segment.create partition.baseDir last.tile.nextOffset partition.maxSegmentBytes
      partition.syncLevel).Weathers state
      (Recoverable lossy ledger.sure partition.baseDir partition.maxSegmentBytes
        ledger.log more) _ :=
    Segment.weathers_create last.tile.nextOffset partition.maxSegmentBytes partition.syncLevel
      frayed.directory freeLog freeIndex width (fun middle quiet => (running.quiet quiet).safe more)
        fun middle touched => by
        refine (frayed.rotate held touched).safe ?_ ?_
        · rw [logOf_fresh, running.log_last]
        · rw [logOf_fresh, running.log_last]
          exact List.prefix_append _ _
  unfold rotate Segment.flush
  refine Program.weathers_bind_pure (Program.weathers_bind created ?_)
  rintro _ after safe ⟨rfl, only, mounted⟩
  refine Program.weathers_pure safe ⟨?_, running.rotate held only mounted⟩
  simp [withBlocks]

/-- What a call that appends leaves of the partition. -/
def Appended (partition : Partition) (ledger : Ledger) (more : List Content) (result : Partition)
    (after : Cached lossy) : Prop :=
  ∃ patches, result = partition.withPatches patches ∧
    Running (ledger.grow more (lossy → partition.syncLevel = .logAndIndex)) after partition.baseDir
      partition.maxSegmentBytes patches

private theorem Appended.none
    (running : Running ledger state partition.baseDir partition.maxSegmentBytes patches) :
    partition.Appended ledger [] (partition.withPatches patches) state := by
  refine ⟨patches, rfl, ?_⟩
  rw [Ledger.grow_nil]
  exact running

private theorem weathers_append_active (careful : lossy → partition.syncLevel ≠ .none)
    (running : Running ledger state partition.baseDir partition.maxSegmentBytes (front ++ [last]))
    (atEnd : last.tile.bytes.length + recordLen key value ≤ partition.maxSegmentBytes →
      last.tile.AtEnd)
    (small : recordLen key value < 2 ^ 32) (offsets : ledger.log.length + 1 < 2 ^ 64) :
    ((last.segment partition.baseDir partition.maxSegmentBytes partition.syncLevel).append key
      value).Weathers state (Recoverable lossy ledger.sure partition.baseDir
        partition.maxSegmentBytes ledger.log [(key, value)])
      (last.AppendEnds ledger.sure partition.baseDir partition.maxSegmentBytes partition.syncLevel
        key value state) := by
  have frayed := running.frayed_last
  refine Segment.weathers_append careful (running.mounted (by simp)) running.bound key value atEnd
    small (by rw [running.nextOffset_eq]; exact offsets)
      (fun middle quiet => (running.quiet quiet).safe _) ?_
  intro stamp bounded
  refine frayed.sheltered bounded (fun message member => ?_) running.bound ?_ ?_
  · rw [List.mem_singleton.mp member]
    exact small
  · rw [running.log_last]
  · rw [running.log_last]
    exact List.prefix_refl _

/-- How `Partition::append` ends, and what a stop inside it leaves. -/
theorem weathers_append (careful : lossy → partition.syncLevel ≠ .none)
    (running : Running ledger state partition.baseDir partition.maxSegmentBytes (front ++ [last]))
    (atEnd : last.tile.bytes.length + recordLen key value ≤ partition.maxSegmentBytes →
      last.tile.AtEnd)
    (small : recordLen key value < 2 ^ 32) (offsets : ledger.log.length + 1 < 2 ^ 64) :
    ((partition.withPatches (front ++ [last])).append key value).Weathers state
      (Recoverable lossy ledger.sure partition.baseDir partition.maxSegmentBytes ledger.log
        [(key, value)])
      fun reply after =>
        (reply.1 = .error .messageTooLarge ∧ partition.maxSegmentBytes < recordLen key value ∧
            partition.Appended ledger [] reply.2 after) ∨
          (reply.1 = .ok ledger.log.length ∧
            partition.Appended ledger [(key, value)] reply.2 after) := by
  have smallOne (stamp : UInt64) : Small [(⟨stamp, key, value⟩ : Message)] := by
    intro message member
    rw [List.mem_singleton.mp member]
    exact small
  refine Program.weathers_bind (weathers_onActive partition front last (·.append key value)
    (weathers_append_active careful running atEnd small offsets)) ?_
  rintro _ after safe ⟨answer, active, rfl, ended⟩
  cases ended with
  | tooLarge large quiet =>
    rw [setActive_withBlocks]
    exact Program.weathers_pure safe (.inl ⟨rfl, large, .none (running.quiet quiet)⟩)
  | stored stamp bounded stored =>
    rw [setActive_withBlocks, running.nextOffset_eq]
    exact Program.weathers_pure safe
      (.inr ⟨rfl, _, rfl, running.extend bounded (smallOne stamp) stored⟩)
  | full held quiet =>
    rw [setActive_withBlocks]
    refine Program.weathers_bind (weathers_rotate (running.quiet quiet) held _) ?_
    rintro _ rotated _ ⟨rfl, fresh⟩
    refine Program.weathers_bind
      (weathers_onActive partition (front ++ [last]) _ (·.append key value)
        (weathers_append_active careful fresh (fun _ => .inl rfl) small offsets)) ?_
    rintro _ final safe ⟨answer, active, rfl, ended⟩
    cases ended with
    | tooLarge large quiet =>
      rw [setActive_withBlocks]
      exact Program.weathers_pure safe (.inl ⟨rfl, large, .none (fresh.quiet quiet)⟩)
    | full stillHeld quiet => exact absurd rfl stillHeld
    | stored stamp bounded stored =>
      rw [setActive_withBlocks, fresh.nextOffset_eq]
      exact Program.weathers_pure safe
        (.inr ⟨rfl, _, rfl, fresh.extend bounded (smallOne stamp) stored⟩)

/-- How the loop of `append_batch` ends: the payloads before the one that stops
it are in the log. -/
def BatchAppended (partition : Partition) (ledger : Ledger) (payloads : List Bytes)
    (baseOffset : Option Nat) (reply : Except RukaError Nat × Partition)
    (after : Cached lossy) : Prop :=
  ∃ taken rest, payloads = taken ++ rest ∧
    partition.Appended ledger (batchContent taken) reply.2 after ∧
    (reply.1 = .ok (baseOffset.getD ledger.log.length) ∧ rest = [] ∨
      reply.1 = .error .messageTooLarge ∧
      ∃ payload ∈ rest, partition.maxSegmentBytes < 28 + payload.length)

private theorem BatchAppended.after_stored (shape : payloads = taken ++ rest)
    (ended : BatchAppended partition
      (ledger.grow (batchContent taken) (lossy → partition.syncLevel = .logAndIndex)) rest
        (some (baseOffset.getD ledger.log.length)) reply after) :
    BatchAppended partition ledger payloads baseOffset reply after := by
  obtain ⟨more, left, rfl, ⟨patches, result, running⟩, answered⟩ := ended
  refine ⟨taken ++ more, left, by rw [shape, List.append_assoc], ⟨patches, result, ?_⟩, answered⟩
  rw [batchContent, List.map_append, Ledger.grow_append]
  exact running

private theorem weathers_batch_active (careful : lossy → partition.syncLevel ≠ .none)
    (running : Running ledger state partition.baseDir partition.maxSegmentBytes (front ++ [last]))
    (atEnd : Segment.Begins partition.maxSegmentBytes last.tile.bytes.length payloads →
      last.tile.AtEnd)
    (nonempty : payloads ≠ []) (small : ∀ payload ∈ payloads, 28 + payload.length < 2 ^ 32) :
    ((last.segment partition.baseDir partition.maxSegmentBytes partition.syncLevel).appendBatch
      payloads).Weathers state (Recoverable lossy ledger.sure partition.baseDir
        partition.maxSegmentBytes ledger.log (batchContent payloads))
      (last.BatchEnds ledger.sure partition.baseDir partition.maxSegmentBytes partition.syncLevel
        payloads state) := by
  refine Segment.weathers_appendBatch careful (running.mounted (by simp)) running.bound payloads
    atEnd nonempty small (fun middle quiet => (running.quiet quiet).safe _) ?_
  intro stamp taken rest shape bounded
  have content : (Segment.stamped stamp taken).map Message.content = batchContent taken :=
    Segment.stamped_content stamp taken
  refine running.frayed_last.sheltered bounded (small_of_batch (fun payload member => ?_) content)
    running.bound ?_ ?_
  · exact small payload (by rw [shape]; exact List.mem_append_left _ member)
  · rw [running.log_last]
  · rw [running.log_last, content, shape, batchContent, batchContent, List.map_append,
      ← List.append_assoc]
    exact List.prefix_append _ _

/-- The loop of `append_batch`. -/
theorem weathers_appendPayloads (careful : lossy → partition.syncLevel ≠ .none) (fuel : Nat)
    (running : Running ledger state partition.baseDir partition.maxSegmentBytes (front ++ [last]))
    (payloads : List Bytes) (baseOffset : Option Nat)
    (atEnd : Segment.Begins partition.maxSegmentBytes last.tile.bytes.length payloads →
      last.tile.AtEnd)
    (small : ∀ payload ∈ payloads, 28 + payload.length < 2 ^ 32) :
    (appendPayloads fuel (partition.withPatches (front ++ [last])) payloads
      baseOffset).Weathers state (Recoverable lossy ledger.sure partition.baseDir
        partition.maxSegmentBytes ledger.log (batchContent payloads))
      (partition.BatchAppended ledger payloads baseOffset) := by
  induction fuel generalizing state ledger front last payloads baseOffset with
  | zero => exact Program.weathers_halt (running.safe _) _
  | succ fuel ih =>
    unfold appendPayloads
    split
    · rename_i empty
      rw [nextOffset_withPatches, running.nextOffset_eq]
      exact Program.weathers_pure (running.safe _) ⟨[], [], empty, .none running, .inl ⟨rfl, rfl⟩⟩
    rename_i nonempty
    refine Program.weathers_bind (weathers_onActive partition front last (·.appendBatch payloads)
      (weathers_batch_active careful running atEnd nonempty small)) ?_
    rintro _ after safe ⟨answer, active, rfl, ended⟩
    cases ended with
    | tooLarge large quiet =>
      rw [setActive_withBlocks]
      exact Program.weathers_pure safe ⟨[], payloads, rfl, .none (running.quiet quiet),
        .inr ⟨rfl, large⟩⟩
    | full held quiet =>
      rw [setActive_withBlocks]
      refine Program.weathers_bind (weathers_rotate (running.quiet quiet) held _) ?_
      rintro _ rotated _ ⟨rfl, fresh⟩
      exact ih fresh payloads baseOffset (fun _ => .inl rfl) small
    | stored stamp taken rest shape progress bounded stored =>
      have content : (Segment.stamped stamp taken).map Message.content = batchContent taken :=
        Segment.stamped_content stamp taken
      have smallTaken : ∀ payload ∈ taken, 28 + payload.length < 2 ^ 32 := fun payload member =>
        small payload (by rw [shape]; exact List.mem_append_left _ member)
      have smallRest : ∀ payload ∈ rest, 28 + payload.length < 2 ^ 32 := fun payload member =>
        small payload (by rw [shape]; exact List.mem_append_right _ member)
      have grown := running.extend bounded (small_of_batch smallTaken content) stored
      have dropped : payloads.drop taken.length = rest := by rw [shape, List.drop_left]
      rw [content] at grown
      have covers (disk : World) (left : Recoverable lossy (ledger.grow (batchContent taken)
          (lossy → partition.syncLevel = .logAndIndex)).sure partition.baseDir
            partition.maxSegmentBytes
          (ledger.log ++ batchContent taken) (batchContent rest) disk) :
          Recoverable lossy ledger.sure partition.baseDir partition.maxSegmentBytes ledger.log
            (batchContent payloads) disk := by
        refine left.mono (fun _ => .inl) (List.prefix_append _ _) ?_
        rw [shape, batchContent, batchContent, batchContent, List.map_append, List.append_assoc]
      rw [setActive_withBlocks, running.nextOffset_eq]
      simp only [dropped]
      split
      · exact ((ih grown rest _ (fun _ => last.tile.atEnd_extend _) smallRest).crash_mono
          covers).mono fun _ _ _ ended => ended.after_stored shape
      · have filled : (last.extend (Segment.stamped stamp taken)).tile.messages ≠ [] := by
          simp [Patch.extend, Tile.extend, Segment.stamped, progress]
        refine Program.weathers_bind
          ((weathers_rotate grown filled (batchContent rest)).crash_mono covers) ?_
        rintro _ rotated _ ⟨rfl, fresh⟩
        exact ((ih fresh rest _ (fun _ => .inl rfl) smallRest).crash_mono covers).mono
          fun _ _ _ ended => ended.after_stored shape

end Partition

end Ruka
