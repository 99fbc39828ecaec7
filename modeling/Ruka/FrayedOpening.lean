import Ruka.FrayedReads

/-! Opening a partition after the machine has stopped, and stopping inside that.
The segments are loaded one after the other; while an index is being rebuilt,
the records of its segment are not sure, since what it says so far looks complete. -/
namespace Ruka
open BigEndian LexicalPaths FilePrograms FilePrograms.Cached DecimalNames SortedSearch TiledBlocks

/-- How many whole records these bytes start with. -/
def wholeRecords : Nat → Bytes → Nat
  | 0, _ => 0
  | fuel + 1, src =>
    match Record.decode src with
    | some (.ok (some _), rest) => wholeRecords fuel rest + 1
    | _ => 0

private theorem wholeRecords_eq (messages : List Message) (small : Small messages)
    (width : offset + messages.length ≤ 2 ^ 64) (torn : Record.decode tail = some (.ok none, tail))
    (fuel : Nat) (enough : messages.length ≤ fuel) :
    wholeRecords fuel (encodeAll (numbered offset messages) ++ tail) = messages.length := by
  induction messages generalizing offset fuel with
  | nil =>
    cases fuel with
    | zero => rfl
    | succ fuel => simp [wholeRecords, numbered, torn]
  | cons message rest ih =>
    rw [List.length_cons] at width enough
    obtain ⟨fuel, rfl⟩ : ∃ less, fuel = less + 1 := ⟨fuel - 1, by omega⟩
    have fits : (message.record offset).Fits :=
      Message.fits_record (small message (by simp)) (by omega)
    have shorter : offset + 1 + rest.length ≤ 2 ^ 64 := by omega
    have tail := ih (fun other member => small other (by simp [member])) shorter fuel (by omega)
    rw [numbered, encodeAll_cons, List.append_assoc, wholeRecords, Record.decode_encode fits]
    simp only [tail, List.length_cons]

theorem Tile.wholeRecords_bytes {tile : Tile} (small : Small tile.messages)
    (bounded : tile.Bounded maxBytes) (torn : Record.decode tail = some (.ok none, tail)) :
    wholeRecords (tile.bytes ++ tail).length (tile.bytes ++ tail) = tile.entries.length := by
  have count : tile.entries.length = tile.messages.length := by simp [Tile.entries, Tile.records]
  rw [count]
  exact wholeRecords_eq tile.messages small (Nat.le_of_lt bounded.offsets) torn _
    (Segment.length_messages_le tile tail)

/-- The record at this offset is in a log whose index is rebuilt when the
partition is opened. -/
def Rebuilds (world : World) (dir : Path) (offset : Nat) : Prop :=
  ∃ baseOffset log, world.file? (logPath dir baseOffset) = some log ∧ baseOffset ≤ offset ∧
    offset < baseOffset + wholeRecords log.length log ∧ LostIndex world (indexPath dir baseOffset)

theorem LostIndex.of_node {world other : World} {path : Path} (lost : LostIndex world path)
    (same : other.node path = world.node path) : LostIndex other path := by
  have files : other.file? path = world.file? path := by rw [World.file?, same, World.file?]
  cases lost with
  | missing absent => exact .missing (same.trans absent)
  | empty held => exact .empty (files.trans held)
  | torn held cut => exact .torn (files.trans held) cut

private theorem Patch.IndexedFrom.of_node {world other : World} {dir : Path} {patch : Patch}
    (source : patch.IndexedFrom world dir)
    (same : other.node (indexPath dir patch.tile.baseOffset) =
      world.node (indexPath dir patch.tile.baseOffset)) :
    patch.IndexedFrom other dir := by
  rcases source with ⟨lost, whole⟩ | ⟨nonempty, held⟩
  · exact .inl ⟨lost.of_node same, whole⟩
  · refine .inr ⟨nonempty, ?_⟩
    rw [World.file?, same]
    exact held

variable {lossy : Prop} {start state after : Cached lossy} {dir : Path} {maxBytes : Nat}
  {tiles : List Tile} {tile : Tile} {sure : Nat → Prop} {loaded : List Patch} {level : SyncLevel}
  {log : List Content}

/-- The records of a tile whose index is lost. -/
theorem Frayed.rebuilds (frayed : Frayed sure state dir maxBytes tiles) (member : tile ∈ tiles)
    (lost : LostIndex state.world (indexPath dir tile.baseOffset)) (listed : entry ∈ tile.entries) :
    Rebuilds state.world dir entry.offset := by
  have legible := frayed.legible tile member
  obtain ⟨buf, found⟩ := Option.ne_none_iff_exists'.mp legible.log
  obtain ⟨tail, rfl, torn⟩ := legible.logs buf (state.current _ _ found)
  have bounds := offset_bounds_of_mem_positions listed
  refine ⟨tile.baseOffset, _, found, bounds.1, ?_, lost⟩
  rw [Tile.wholeRecords_bytes (Filed.small_tile frayed.small member)
    (frayed.bounded tile member) torn]
  simpa [Tile.entries, Tile.records] using bounds.2

/-- The partition half loaded: what is still ahead is as it was at the start. -/
structure Loading (sure : Nat → Prop) (start state : Cached lossy) (dir : Path) (maxBytes : Nat)
    (tiles : List Tile) (loaded : List Patch) : Prop where
  frayed : Frayed (fun offset => sure offset ∧ ¬ Rebuilds start.world dir offset) state
    dir maxBytes tiles
  ahead : ∀ tile ∈ tiles, (∀ patch ∈ loaded, patch.tile.baseOffset ≠ tile.baseOffset) →
    start.Keeps state (logPath dir tile.baseOffset) ∧
    start.Keeps state (indexPath dir tile.baseOffset)
  mine : ∀ patch ∈ loaded, ∃ tile ∈ tiles, patch.tile = tile.reopened
  disk : ∀ patch ∈ loaded, patch.OnDisk state.world dir
  found : ∀ patch ∈ loaded, patch.tile.Indexes sure patch.known
  source : ∀ patch ∈ loaded, patch.IndexedFrom start.world dir

namespace Loading

private theorem initial (frayed : Frayed sure state dir maxBytes tiles) :
    Loading sure state state dir maxBytes tiles [] where
  frayed := frayed.of_imp fun _ held => held.1
  ahead _ _ _ := ⟨.refl _ _, .refl _ _⟩
  mine _ member := absurd member List.not_mem_nil
  disk _ member := absurd member List.not_mem_nil
  found _ member := absurd member List.not_mem_nil
  source _ member := absurd member List.not_mem_nil

private theorem safe (loading : Loading sure start state dir maxBytes tiles loaded) :
    state.Safe fun disk => Frayed (fun offset => sure offset ∧ ¬ Rebuilds start.world dir offset)
      (settled lossy disk) dir maxBytes tiles :=
  fun _ survives => loading.frayed.survives survives

/-- The next segment is loaded. -/
theorem load (loading : Loading sure start state dir maxBytes tiles loaded)
    (frayed : Frayed sure start dir maxBytes tiles) (member : tile ∈ tiles)
    (new : ∀ patch ∈ loaded, patch.tile.baseOffset ≠ tile.baseOffset) :
    (Segment.load dir tile.baseOffset maxBytes level).Completes state
      (fun disk => Frayed (fun offset => sure offset ∧ ¬ Rebuilds start.world dir offset)
        (settled lossy disk) dir maxBytes tiles)
      fun reply after => ∃ patch : Patch, reply = .ok (patch.segment dir maxBytes level) ∧
        patch.tile.baseOffset = tile.baseOffset ∧
        Loading sure start after dir maxBytes tiles (loaded ++ [patch]) := by
  obtain ⟨logKept, indexKept⟩ := loading.ahead tile member new
  have legible := (frayed.legible tile member).of_left logKept.left indexKept.left
  have rebuilt (lost : LostIndex state.world (indexPath dir tile.baseOffset)) :
      ∀ entry ∈ tile.entries, ¬ (sure entry.offset ∧ ¬ Rebuilds start.world dir entry.offset) :=
    fun entry listed held =>
      held.2 (frayed.rebuilds member (lost.of_node indexKept.node.symm) listed)
  refine (Segment.completes_load maxBytes level legible (frayed.bounded tile member)
    (Filed.small_tile frayed.small member) loading.frayed.directory.isDirectory
      (fun _ _ held => held.1) rebuilt
    fun middle touched _ survives =>
      (loading.frayed.touched member touched).survives survives).mono ?_
  rintro _ after - ⟨patch, rfl, shape, indexes, source, disk, touched⟩
  have base : patch.tile.baseOffset = tile.baseOffset := by rw [shape]; rfl
  refine ⟨patch, rfl, base, loading.frayed.touched member touched, fun other listed apart => ?_,
    fun other listed => ?_, fun other listed => ?_, fun other listed => ?_, fun other listed => ?_⟩
  · have bases : other.baseOffset ≠ tile.baseOffset := fun same =>
      apart patch (by simp) (base.trans same.symm)
    obtain ⟨logs, indexes⟩ := segment_paths_ne dir bases
    obtain ⟨logSame, indexSame⟩ := loading.ahead other listed fun patch found =>
      apart patch (by simp [found])
    exact ⟨logSame.trans (touched.others _ logs (logPath_ne_indexPath dir _ _)),
      indexSame.trans (touched.others _ (Ne.symm (logPath_ne_indexPath dir _ _)) indexes)⟩
  · rcases List.mem_append.mp listed with before | isNew
    · exact loading.mine other before
    · rw [List.mem_singleton.mp isNew]
      exact ⟨tile, member, shape⟩
  · rcases List.mem_append.mp listed with before | isNew
    · exact (loading.disk other before).only touched.others (new other before)
    · rw [List.mem_singleton.mp isNew]
      exact disk
  · rcases List.mem_append.mp listed with before | isNew
    · exact loading.found other before
    · rw [List.mem_singleton.mp isNew]
      exact indexes
  · rcases List.mem_append.mp listed with before | isNew
    · exact loading.source other before
    · rw [List.mem_singleton.mp isNew]
      exact source.of_node (base ▸ indexKept.node.symm)

/-- The patches in the order of their base offsets are the tiles, opened anew. -/
theorem ordered (loading : Loading sure start state dir maxBytes tiles loaded)
    (bases : (loaded.map fun patch => patch.tile.baseOffset).Perm (tiles.map Tile.baseOffset)) :
    (loaded.insertionSort fun a b => a.tile.baseOffset ≤ b.tile.baseOffset).map Patch.tile =
      tiles.map Tile.reopened := by
  have sorted := loading.frayed.tiled.sorted
  have total : Std.Total (fun a b : Patch => a.tile.baseOffset ≤ b.tile.baseOffset) :=
    ⟨fun _ _ => Nat.le_total _ _⟩
  have trans : IsTrans Patch (fun a b => a.tile.baseOffset ≤ b.tile.baseOffset) :=
    ⟨fun _ _ _ => Nat.le_trans⟩
  have named : loaded.map Patch.tile = (loaded.map fun patch => patch.tile.baseOffset).map
      fun baseOffset => (Partition.tileAt tiles baseOffset).reopened := by
    rw [List.map_map]
    refine List.map_congr_left fun patch member => ?_
    obtain ⟨tile, found, shape⟩ := loading.mine patch member
    simp only [Function.comp_def, shape]
    exact congrArg Tile.reopened (Partition.tileAt_eq sorted found).symm
  have same : (tiles.map Tile.baseOffset).map
      (fun baseOffset => (Partition.tileAt tiles baseOffset).reopened) =
        tiles.map Tile.reopened := by
    rw [List.map_map]
    exact List.map_congr_left fun tile found =>
      congrArg Tile.reopened (Partition.tileAt_eq sorted found)
  have perm : (loaded.map Patch.tile).Perm (tiles.map Tile.reopened) := by
    rw [named, ← same]
    exact bases.map _
  have arranged :=
    (List.perm_insertionSort (fun a b : Patch => a.tile.baseOffset ≤ b.tile.baseOffset)
      loaded).map Patch.tile
  have ascending :
      ((loaded.insertionSort fun a b => a.tile.baseOffset ≤ b.tile.baseOffset).map
        Patch.tile).Pairwise (fun a b => a.baseOffset ≤ b.baseOffset) := List.pairwise_map.mpr
          (List.pairwise_insertionSort _ _)
  refine List.Perm.eq_of_pairwise (fun a b memberA memberB below above => ?_) ascending
    (List.pairwise_map.mpr (sorted.imp fun less => Nat.le_of_lt less)) (arranged.trans perm)
  obtain ⟨first, foundFirst, rfl⟩ := List.mem_map.mp ((arranged.trans perm).subset memberA)
  obtain ⟨second, foundSecond, rfl⟩ := List.mem_map.mp memberB
  have equal : first.baseOffset = second.baseOffset := Nat.le_antisymm below above
  rw [← Partition.tileAt_eq sorted foundFirst, equal, Partition.tileAt_eq sorted foundSecond]

end Loading

namespace Partition

/-- The scan of `open_or_create` over what is found of a partition. -/
theorem completes_loadSegments (listing : List Name) (frayed : Frayed sure start dir maxBytes tiles)
    (loading : Loading sure start state dir maxBytes tiles loaded)
    (distinct : (loaded.map (fun patch => patch.tile.baseOffset) ++
      listing.filterMap segmentBase).Nodup)
    (known : ∀ baseOffset ∈ listing.filterMap segmentBase, ∃ tile ∈ tiles,
      tile.baseOffset = baseOffset) :
    (loadSegments dir maxBytes level listing).Completes state
      (fun disk => Frayed (fun offset => sure offset ∧ ¬ Rebuilds start.world dir offset)
        (settled lossy disk) dir maxBytes tiles)
      fun reply after =>
        ∃ more : List Patch, reply = .ok (more.map (Patch.segment dir maxBytes level)) ∧
        more.map (fun patch => patch.tile.baseOffset) = listing.filterMap segmentBase ∧
        Loading sure start after dir maxBytes tiles (loaded ++ more) := by
  induction listing generalizing state loaded with
  | nil => exact Program.completes_pure loading.safe ⟨[], rfl, rfl, by rwa [List.append_nil]⟩
  | cons name rest ih =>
    unfold loadSegments
    cases based : segmentBase name with
    | none =>
      have skipped : (name :: rest).filterMap segmentBase =
          rest.filterMap segmentBase := by simp [based]
      rw [skipped] at distinct known ⊢
      exact ih loading distinct known
    | some baseOffset =>
      have shape : (name :: rest).filterMap segmentBase =
          baseOffset :: rest.filterMap segmentBase := by simp [based]
      rw [shape] at distinct known ⊢
      obtain ⟨tile, member, rfl⟩ := known baseOffset (by simp)
      have new : ∀ patch ∈ loaded, patch.tile.baseOffset ≠ tile.baseOffset := fun patch found =>
        (List.nodup_append.mp distinct).2.2 _ (List.mem_map_of_mem found) _ (by simp)
      refine Program.completes_bind (loading.load frayed member new) ?_
      rintro _ between _ ⟨patch, rfl, base, further⟩
      refine Program.completes_bind
        (ih further ?_ fun other listed => known other (by simp [listed])) ?_
      · rw [List.map_append, List.map_singleton, base, List.append_assoc]
        exact distinct
      rintro _ final safe ⟨more, rfl, bases, done⟩
      refine Program.completes_pure safe ⟨patch :: more, rfl, ?_, ?_⟩
      · rw [List.map_cons, base, bases]
      · rw [List.append_assoc] at done
        exact done

end Partition

namespace Ledger

/-- The partition is opened: a read finds what was sure, and what has to be
rebuilt for that is not sure on a lossy machine. -/
def reopen (ledger : Ledger) (lossy : Prop) (rebuilt : Nat → Prop) : Ledger where
  log := ledger.log
  found := ledger.sure
  sure offset := ledger.sure offset ∧ (lossy → ¬ rebuilt offset)
  sure_found _ held := held.1
  within offset held := ledger.within offset (ledger.sure_found offset held)

/-- The machine has stopped: some more records may have reached the log, and
what is `lost` is not sure any more. -/
def stop (ledger : Ledger) (more : List Content) (lost : Nat → Prop) : Ledger where
  log := ledger.log ++ more
  found offset := ledger.sure offset ∧ ¬ lost offset
  sure offset := ledger.sure offset ∧ ¬ lost offset
  sure_found _ held := held
  within offset held := by
    rw [List.length_append]
    exact Nat.lt_of_lt_of_le (ledger.within offset (ledger.sure_found offset held.1))
      (Nat.le_add_right _ _)

@[simp] private theorem log_stop (ledger : Ledger) (more : List Content) (lost : Nat → Prop) :
    (ledger.stop more lost).log = ledger.log ++ more := rfl

end Ledger

/-- On a machine that loses nothing, what is found now is found later. -/
theorem Running.durable {ledger : Ledger} {patches : List Patch}
    (running : Running ledger state dir maxBytes patches) (keeps : ¬ lossy) :
    Frayed ledger.found state dir maxBytes (patches.map Patch.tile) := by
  refine running.frayed.judge fun tile member => ?_
  obtain ⟨patch, found, rfl⟩ := List.mem_map.mp member
  have legible := running.frayed.legible _ member
  refine ⟨legible.log, legible.logs, legible.index, fun _ data possible => ?_⟩
  have held := (running.disk patch found).index
  rw [state.durable keeps _ _ possible] at held
  exact .inr (.inr ⟨patch.known, Option.some.inj held, running.found patch found⟩)

namespace Vacant
variable {world disk : World}

private theorem survives (vacant : Vacant state.world dir) (survives : state.Survives disk) :
    Vacant disk dir where
  empty name := by
    have nothing := vacant.empty name
    rw [survives.other _ (by rw [World.file?, nothing]), nothing]
  clear ancestor below above := by
    have noFile := vacant.clear ancestor below above
    rw [World.file?, survives.other ancestor noFile, ← World.file?, noFile]

theorem quiet (vacant : Vacant state.world dir) (quiet : state.Quiet after) :
    Vacant after.world dir where
  empty name := (quiet _).node.trans (vacant.empty name)
  clear ancestor below above := (quiet ancestor).file?_eq.trans (vacant.clear ancestor below above)

/-- The directory, or some of those above it, are made, and it is still empty. -/
theorem putDirectories (vacant : Vacant world dir) (above : path <+: dir) :
    Vacant (world.putDirectories path) dir where
  empty name := by
    have notAbove : ¬ (dir ++ [name] <+: path) := by
      intro inside
      have length := (inside.trans above).length_le
      simp at length
    simp only [World.putDirectories, notAbove, and_false, ↓reduceIte]
    exact vacant.empty name
  clear ancestor below higher :=
    World.file?_putDirectories (vacant.clear ancestor below higher) path

end Vacant

/-- The first tile of a partition. -/
theorem Frayed.first (maxBytes : Nat) (directory : state.world.HasDirectory dir)
    (vacant : Vacant state.world dir) (touched : (Tile.fresh 0).Touched sure dir state after) :
    Frayed sure after dir maxBytes [Tile.fresh 0] where
  tiled := rfl
  bounded tile member := by
    rw [List.mem_singleton.mp member]
    exact ⟨Nat.zero_le _, Nat.two_pow_pos 64, Nat.two_pow_pos 64⟩
  small _ member := absurd member List.not_mem_nil
  directory ancestor below above :=
    have apart := ancestor_ne_segment_paths above 0
    (touched.others ancestor apart.1 apart.2).node.trans (directory ancestor below above)
  legible tile member := by
    rw [List.mem_singleton.mp member]
    exact touched.legible
  only name present := by
    refine ⟨Tile.fresh 0, List.mem_singleton_self _,
      Classical.byContradiction fun other => present ?_⟩
    obtain ⟨notLog, notIndex⟩ := not_or.mp other
    have notLog : dir ++ [name] ≠ logPath dir 0 := by simpa [logPath, Tile.fresh] using notLog
    have notIndex : dir ++ [name] ≠ indexPath dir 0 := by
      simpa [indexPath, Tile.fresh] using notIndex
    exact (touched.others _ notLog notIndex).node.trans (vacant.empty name)

/-- The directory can be listed. -/
theorem Frayed.exists_listing (frayed : Frayed sure state dir maxBytes tiles) :
    ∃ listing, Enumerates state.world dir listing := by
  refine ⟨(tiles.flatMap fun tile => [logName tile.baseOffset, indexName tile.baseOffset]).filter
    (fun name => (state.world.node (dir ++ [name])).isSome),
    (nodup_names frayed.tiled.sorted).filter _, fun name => ?_⟩
  rw [List.mem_filter, Option.isSome_iff_ne_none]
  refine ⟨fun listed => listed.2, fun present => ⟨?_, present⟩⟩
  obtain ⟨tile, member, named⟩ := frayed.only name present
  exact List.mem_flatMap.mpr ⟨tile, member, by simpa using named⟩

/-- A partition that is not open: it has not been created, or is to be found. -/
def Resting (settings : Settings) (ledger : Ledger) (state : Cached lossy) : Prop :=
  (Vacant state.world settings.dir ∧ ledger.log = []) ∨
    ∃ tiles, Frayed ledger.sure state settings.dir settings.maxSegmentBytes tiles ∧
    logOf tiles = ledger.log

theorem Running.resting {settings : Settings} {ledger : Ledger} {patches : List Patch}
    (running : Running ledger state settings.dir settings.maxSegmentBytes patches) :
    Resting settings ledger state :=
  .inr ⟨_, running.frayed, running.log⟩

namespace Resting
variable {settings : Settings} {ledger fewer : Ledger}

/-- What stops can make of it. -/
theorem survives (resting : Resting settings ledger state) {disk : World}
    (survives : state.Survives disk) : Resting settings ledger (settled lossy disk) := by
  rcases resting with ⟨vacant, empty⟩ | ⟨tiles, frayed, log⟩
  · exact .inl ⟨vacant.survives survives, empty⟩
  · exact .inr ⟨tiles, frayed.survives survives, log⟩

theorem of_imp (resting : Resting settings ledger state) (same : fewer.log = ledger.log)
    (implies : ∀ offset, fewer.sure offset → ledger.sure offset) :
    Resting settings fewer state := by
  rcases resting with ⟨vacant, empty⟩ | ⟨tiles, frayed, log⟩
  · exact .inl ⟨vacant, same.trans empty⟩
  · exact .inr ⟨tiles, frayed.of_imp implies, log.trans same.symm⟩

theorem exists_listing (resting : Resting settings ledger state) :
    ∃ listing, Enumerates state.world settings.dir listing := by
  rcases resting with ⟨vacant, -⟩ | ⟨tiles, frayed, -⟩
  · exact ⟨[], List.nodup_nil, fun name => ⟨fun listed => absurd listed List.not_mem_nil,
      fun present => absurd (vacant.empty name) present⟩⟩
  · exact frayed.exists_listing

end Resting

namespace Settings
variable {settings : Settings} {ledger : Ledger}

/-- The partition once its segments are loaded and sorted. -/
theorem running_of_loading
    (loading : Loading ledger.sure start state settings.dir settings.maxSegmentBytes tiles loaded)
    (bases : (loaded.map fun patch => patch.tile.baseOffset).Perm (tiles.map Tile.baseOffset))
    (log : logOf tiles = ledger.log) :
    Running (ledger.reopen lossy (Rebuilds start.world settings.dir)) state settings.dir
      settings.maxSegmentBytes (loaded.insertionSort fun a b => a.tile.baseOffset ≤
        b.tile.baseOffset) := by
  have ordered := loading.ordered bases
  have listed (patch : Patch)
      (member : patch ∈ loaded.insertionSort fun a b => a.tile.baseOffset ≤ b.tile.baseOffset) :
      patch ∈ loaded := (List.mem_insertionSort _).mp member
  have cautious : Running (ledger.reopen True (Rebuilds start.world settings.dir))
      state settings.dir settings.maxSegmentBytes
        (loaded.insertionSort fun a b => a.tile.baseOffset ≤ b.tile.baseOffset) := by
    refine ⟨?_, ?_, fun patch member => loading.disk patch (listed patch member),
      fun patch member => loading.found patch (listed patch member)⟩
    · rw [ordered]
      exact (loading.frayed.of_sameLogs (.reopened tiles)).of_imp fun _ held =>
        ⟨held.1, held.2 trivial⟩
    · rw [ordered, logOf, contents_reopened]
      exact log
  refine ⟨?_, cautious.log, cautious.disk, cautious.found⟩
  by_cases loses : lossy
  · exact cautious.frayed.of_imp fun _ held => ⟨held.1, fun _ => held.2 loses⟩
  · exact (cautious.durable loses).of_imp fun _ held => held.1

/-- `open_or_create` on what is found of a partition: it always succeeds, and a
stop inside it loses at most the index entries it was rebuilding. -/
theorem completes_openOrCreate_frayed (readDir : Path → List Name) (level : SyncLevel)
    (frayed : Frayed ledger.sure state settings.dir settings.maxSegmentBytes tiles)
    (log : logOf tiles = ledger.log)
    (enumerates : Enumerates state.world settings.dir (readDir settings.dir)) :
    (settings.openOrCreate readDir level).Completes state
      (fun disk => Frayed (ledger.stop [] (Rebuilds state.world settings.dir)).sure
        (settled lossy disk) settings.dir settings.maxSegmentBytes tiles)
      fun reply after => ∃ patches, reply = .ok ((settings.frame level).withPatches patches) ∧
        Running (ledger.reopen lossy (Rebuilds state.world settings.dir)) after settings.dir
          settings.maxSegmentBytes patches ∧
        patches.map Patch.tile = tiles.map Tile.reopened ∧
        ∀ patch ∈ patches, patch.IndexedFrom state.world settings.dir := by
  have sorted := frayed.tiled.sorted
  have perm := bases_perm enumerates sorted
    (fun tile member => by
      have offsets := (frayed.bounded tile member).offsets
      unfold Tile.nextOffset at offsets
      omega)
    (fun tile member => (file?_ne_none.mp (frayed.legible tile member).log).1) frayed.only
  have distinct : ((readDir settings.dir).filterMap segmentBase).Nodup :=
    perm.nodup_iff.mpr (List.pairwise_map.mpr (sorted.imp fun less => Nat.ne_of_lt less))
  have created := run_createDirAll_present frayed.directory
  refine Program.completes_bind
    (((weathers_createDirAll frayed.directory fun middle quiet disk survives =>
    ((frayed.quiet quiet).of_imp fun _ held => held.1).survives survives).with_run
      created).completes created) ?_
  rintro _ opened _ ⟨rfl, disk, quiet⟩
  have still := frayed.quiet quiet
  rw [← disk]
  refine Program.completes_bind
    (Partition.completes_loadSegments (readDir settings.dir) still (.initial still) distinct
      fun baseOffset listed => List.mem_map.mp (perm.mem_iff.mp listed)) ?_
  rintro _ final safe ⟨more, rfl, bases, loading⟩
  rw [← bases] at perm
  rw [List.nil_append] at loading
  have sorts : (more.map (Patch.segment settings.dir settings.maxSegmentBytes level)).insertionSort
      (fun a b => a.baseOffset ≤ b.baseOffset) =
      (more.insertionSort fun a b => a.tile.baseOffset ≤ b.tile.baseOffset).map
        (Patch.segment settings.dir settings.maxSegmentBytes level) :=
    (List.map_insertionSort (fun a b : Patch => a.tile.baseOffset ≤ b.tile.baseOffset)
      (fun a b : Segment => a.baseOffset ≤ b.baseOffset) _ more fun _ _ _ _ => Iff.rfl).symm
  have nonempty : more.insertionSort (fun a b => a.tile.baseOffset ≤ b.tile.baseOffset) ≠ [] := by
    intro nothing
    have ordered := loading.ordered perm
    rw [nothing] at ordered
    exact frayed.tiled.nonempty (List.map_eq_nil_iff.mp ordered.symm)
  rw [show partitionDir settings.baseDir settings.topic settings.id = settings.dir from rfl]
  simp only
  rw [sorts, if_neg (by simpa using nonempty)]
  exact Program.completes_pure safe ⟨_, rfl, running_of_loading loading perm log,
    loading.ordered perm, fun patch member =>
      loading.source patch ((List.mem_insertionSort _).mp member)⟩

/-- `open_or_create` where there is no partition yet. -/
theorem completes_openOrCreate_vacant (readDir : Path → List Name) (level : SyncLevel)
    (sure : Nat → Prop) (vacant : Vacant state.world settings.dir)
    (enumerates : Enumerates state.world settings.dir (readDir settings.dir)) :
    (settings.openOrCreate readDir level).Completes state
      (fun disk => Vacant disk settings.dir ∨
        Frayed sure (settled lossy disk) settings.dir settings.maxSegmentBytes [Tile.fresh 0])
      fun reply after => reply = .ok ((settings.frame level).withPatches [Patch.fresh 0]) ∧
        Frayed sure after settings.dir settings.maxSegmentBytes [Tile.fresh 0] ∧
        (Patch.fresh 0).OnDisk after.world settings.dir := by
  have nothing : readDir settings.dir = [] := by
    rw [List.eq_nil_iff_forall_not_mem]
    intro name member
    exact (enumerates.every name).mp member (vacant.empty name)
  obtain ⟨ran, -⟩ :=
    Partition.run_openOrCreate_vacant readDir settings.topic settings.id settings.baseDir
      settings.maxSegmentBytes level vacant enumerates
  refine Program.Weathers.completes ?_ ran
  have created := run_createDirAll vacant.clear
  refine Program.weathers_bind_of_run (weathers_createDirAll_clear vacant.clear
    fun middle _ above made disk survives =>
      .inl (Vacant.survives (made ▸ vacant.putDirectories above) survives))
    created ?_
  intro made _ madeDisk _
  have still : Vacant made.world settings.dir :=
    madeDisk ▸ vacant.putDirectories (List.prefix_refl _)
  have directory : made.world.HasDirectory settings.dir :=
    madeDisk ▸ World.hasDirectory_putDirectories state.world settings.dir
  rw [show partitionDir settings.baseDir settings.topic settings.id =
    settings.dir from rfl, nothing]
  refine Program.weathers_bind_pure ?_
  simp only [List.insertionSort_nil, ↓reduceIte]
  refine Program.weathers_bind
    (Segment.weathers_create 0 settings.maxSegmentBytes level directory (still.empty _)
      (still.empty _) (Nat.two_pow_pos 64)
        (fun middle quiet disk survives => .inl ((still.quiet quiet).survives survives))
    fun middle touched disk survives =>
      .inr ((Frayed.first _ directory still touched).survives survives)) ?_
  rintro _ after safe ⟨rfl, only, mounted⟩
  exact Program.weathers_pure safe
    ⟨rfl, Frayed.first _ directory still ⟨only, mounted.legible⟩, mounted.disk⟩

/-- However the machine has stopped, the partition can be opened, and a stop
inside that leaves a partition that can be opened. -/
theorem completes_openOrCreate (readDir : Path → List Name) (level : SyncLevel)
    (resting : Resting settings ledger state)
    (enumerates : Enumerates state.world settings.dir (readDir settings.dir)) :
    (settings.openOrCreate readDir level).Completes state
      (fun disk => Resting settings (ledger.stop [] (Rebuilds state.world settings.dir))
        (settled lossy disk))
      fun reply after => ∃ patches, reply = .ok ((settings.frame level).withPatches patches) ∧
        Running (ledger.reopen lossy (Rebuilds state.world settings.dir)) after settings.dir
          settings.maxSegmentBytes patches := by
  rcases resting with ⟨vacant, empty⟩ | ⟨tiles, frayed, log⟩
  · refine ((completes_openOrCreate_vacant readDir level ledger.sure vacant
      enumerates).crash_mono ?_).mono ?_
    · rintro disk (vacant | frayed)
      · exact .inl ⟨vacant, by rw [Ledger.log_stop, empty, List.append_nil]⟩
      · exact .inr ⟨_, frayed.of_imp fun _ held => held.1, by rw [Ledger.log_stop, empty]; rfl⟩
    · rintro _ after - ⟨rfl, frayed, disk⟩
      refine ⟨[Patch.fresh 0], rfl, frayed.of_imp fun _ held => held.1, empty.symm,
        fun patch member => ?_, fun patch member => ?_⟩
      · rw [List.mem_singleton.mp member]
        exact disk
      · rw [List.mem_singleton.mp member]
        exact ⟨List.Sublist.refl _, fun _ listed => absurd listed List.not_mem_nil⟩
  · refine ((completes_openOrCreate_frayed readDir level frayed log enumerates).crash_mono
      fun disk left => ?_).mono ?_
    · exact .inr ⟨tiles, left, by rw [Ledger.log_stop, List.append_nil, log]⟩
    · rintro _ after - ⟨patches, rfl, running, -⟩
      exact ⟨patches, rfl, running⟩

end Settings

end Ruka
