import Ruka.PartitionReads

/-! Opening a partition: on an empty directory, and on the directory an earlier
life of the partition left behind, in whatever order its entries are listed. -/
namespace Ruka
open BigEndian LexicalPaths FilePrograms DecimalNames SortedSearch TiledBlocks

/-- The enumeration of a directory lists every entry once. -/
structure Enumerates (world : World) (dir : Path) (listing : List Name) : Prop where
  once : listing.Nodup
  every : ∀ name, name ∈ listing ↔ world.node (dir ++ [name]) ≠ none

/-- The directory is missing or empty, and no file stands where it or a
directory above it would be. -/
structure Vacant (world : World) (dir : Path) : Prop where
  empty : ∀ name, world.node (dir ++ [name]) = none
  clear : ∀ ancestor, ancestor ≠ [] → ancestor <+: dir → world.file? ancestor = none

private theorem segmentBase_logName (small : baseOffset < 2 ^ 64) :
    segmentBase (logName baseOffset) = some baseOffset := by
  unfold segmentBase logName
  simp only
  rw [splitExtension_dot _ (padded_ne_nil 20 baseOffset) (by decide)]
  exact parseUint_padded 20 small

private theorem segmentBase_indexName (baseOffset : Nat) :
    segmentBase (indexName baseOffset) = none := by
  unfold segmentBase indexName
  simp only
  rw [splitExtension_dot _ (padded_ne_nil 20 baseOffset) (by decide)]
  exact if_neg (by decide)

/-- The log names in a listing are those of the tiles, in some order. -/
theorem bases_perm {world : World} {dir : Path} {tiles : List Tile} {listing : List Name}
    (enumerates : Enumerates world dir listing)
    (sorted : tiles.Pairwise (fun a b => a.baseOffset < b.baseOffset))
    (small : ∀ tile ∈ tiles, tile.baseOffset < 2 ^ 64)
    (logs : ∀ tile ∈ tiles, world.node (logPath dir tile.baseOffset) ≠ none)
    (only : ∀ name, world.node (dir ++ [name]) ≠ none →
      ∃ tile ∈ tiles, name = logName tile.baseOffset ∨ name = indexName tile.baseOffset) :
    (listing.filterMap segmentBase).Perm (tiles.map Tile.baseOffset) := by
  have names : ∀ name ∈ listing, ∀ baseOffset, segmentBase name = some baseOffset →
      name = logName baseOffset ∧ ∃ tile ∈ tiles, tile.baseOffset = baseOffset := by
    intro name member baseOffset based
    obtain ⟨tile, found, named⟩ := only name ((enumerates.every name).mp member)
    rcases named with rfl | rfl
    · rw [segmentBase_logName (small tile found)] at based
      cases based
      exact ⟨rfl, tile, found, rfl⟩
    · rw [segmentBase_indexName] at based
      cases based
  have distinct : (tiles.map Tile.baseOffset).Nodup :=
    List.pairwise_map.mpr (sorted.imp fun less => Nat.ne_of_lt less)
  have unique : (listing.filterMap segmentBase).Nodup := by
    refine List.pairwise_filterMap.mpr (enumerates.once.imp_of_mem ?_)
    intro first second firstMember secondMember differ a basedA b basedB same
    subst same
    exact differ ((names first firstMember a basedA).1.trans
      (names second secondMember a basedB).1.symm)
  refine (List.perm_ext_iff_of_nodup unique distinct).mpr fun baseOffset => ?_
  rw [List.mem_filterMap, List.mem_map]
  constructor
  · rintro ⟨name, member, based⟩
    exact (names name member baseOffset based).2
  · rintro ⟨tile, found, rfl⟩
    exact ⟨logName tile.baseOffset, (enumerates.every _).mpr (logs tile found),
      segmentBase_logName (small tile found)⟩

namespace Partition
variable {world after : World} {dir : Path} {tiles : List Tile} {listing : List Name}

/-- The scan loads one segment after the other; `inv` follows the disk, given
the base offsets already loaded. -/
theorem run_loadSegments (dir : Path) (maxBytes : Nat) (syncLevel : SyncLevel) (listing : List Name)
    (inv : List Nat → World → Prop) (loads : Nat → Segment) (done : List Nat)
    (each : ∀ done baseOffset world, baseOffset ∈ listing.filterMap segmentBase → inv done world →
      ∃ after, (Segment.load dir baseOffset maxBytes syncLevel).run world =
        (.ok (.ok (loads baseOffset)), after) ∧ inv (done ++ [baseOffset]) after)
    (start : inv done world) :
    ∃ after, (loadSegments dir maxBytes syncLevel listing).run world =
      (.ok (.ok ((listing.filterMap segmentBase).map loads)), after) ∧
        inv (done ++ listing.filterMap segmentBase) after := by
  induction listing generalizing world done with
  | nil => exact ⟨world, rfl, by simpa using start⟩
  | cons name rest ih =>
    unfold loadSegments
    cases based : segmentBase name with
    | none =>
      have skipped : (name :: rest).filterMap segmentBase = rest.filterMap segmentBase := by
        simp [based]
      rw [skipped] at each ⊢
      exact ih done each start
    | some baseOffset =>
      have shape : (name :: rest).filterMap segmentBase =
          baseOffset :: rest.filterMap segmentBase := by
        simp [based]
      rw [shape] at each ⊢
      obtain ⟨middle, first, moved⟩ := each done baseOffset world (by simp) start
      obtain ⟨after, later, reached⟩ := ih (done ++ [baseOffset])
        (fun done other world member => each done other world (by simp [member])) moved
      refine ⟨after, ?_, by simpa using reached⟩
      simp only
      rw [Program.run_bind_of_run first]
      simp only
      rw [Program.run_bind_of_run later]
      rfl

/-- Segments loaded in any order are sorted back into the order of the tiles. -/
theorem insertionSort_loaded {bases : List Nat} (loads : Nat → Segment)
    (keyed : ∀ baseOffset, (loads baseOffset).baseOffset = baseOffset)
    (perm : bases.Perm (tiles.map Tile.baseOffset))
    (sorted : tiles.Pairwise (fun a b => a.baseOffset < b.baseOffset)) :
    (bases.map loads).insertionSort (fun a b => a.baseOffset ≤ b.baseOffset) =
      tiles.map (fun tile => loads tile.baseOffset) := by
  have total : Std.Total (fun a b : Segment => a.baseOffset ≤ b.baseOffset) :=
    ⟨fun _ _ => Nat.le_total _ _⟩
  have trans : IsTrans Segment (fun a b => a.baseOffset ≤ b.baseOffset) :=
    ⟨fun _ _ _ => Nat.le_trans⟩
  have same : (tiles.map Tile.baseOffset).map loads =
      tiles.map (fun tile => loads tile.baseOffset) := by
    simp
  refine List.Perm.eq_of_pairwise ?_ (List.pairwise_insertionSort _ _) ?_
    ((List.perm_insertionSort _ _).trans (same ▸ perm.map loads))
  · intro a b memberA memberB below above
    rw [List.mem_insertionSort, List.mem_map] at memberA
    obtain ⟨first, -, rfl⟩ := memberA
    obtain ⟨tile, -, rfl⟩ := List.mem_map.mp memberB
    rw [keyed, keyed] at below above
    rw [Nat.le_antisymm below above]
  · refine List.pairwise_map.mpr (sorted.imp fun less => ?_)
    rw [keyed, keyed]
    exact Nat.le_of_lt less

/-- The tile with this base offset. -/
def tileAt (tiles : List Tile) (baseOffset : Nat) : Tile :=
  (tiles.find? fun tile => tile.baseOffset = baseOffset).getD (Tile.fresh baseOffset)

private theorem tileAt_baseOffset (tiles : List Tile) (baseOffset : Nat) :
    (tileAt tiles baseOffset).baseOffset = baseOffset := by
  unfold tileAt
  cases found : tiles.find? fun tile => tile.baseOffset = baseOffset with
  | none => rfl
  | some tile => simpa using List.find?_some found

theorem tileAt_eq (sorted : tiles.Pairwise (fun a b => a.baseOffset < b.baseOffset))
    (member : tile ∈ tiles) : tileAt tiles tile.baseOffset = tile := by
  obtain ⟨front, back, rfl⟩ := List.append_of_mem member
  have before := (List.pairwise_append.mp sorted).2.2
  have skipped : front.find? (fun other => other.baseOffset = tile.baseOffset) = none := by
    rw [List.find?_eq_none]
    intro other found
    have less := before other found tile (by simp)
    simpa using Nat.ne_of_lt less
  simp [tileAt, List.find?_append, skipped]

/-- A partition opened on a directory of its own earlier life. -/
theorem run_openOrCreate_existing (readDir : Path → List Name) (topic : String) (id : UInt32)
    (baseDir : Path) (maxBytes : Nat) (syncLevel : SyncLevel)
    (layout : Layout world (partitionDir baseDir topic id) maxBytes tiles)
    (small : Small (contents tiles))
    (enumerates : Enumerates world (partitionDir baseDir topic id)
      (readDir (partitionDir baseDir topic id))) :
      (openOrCreate readDir topic id baseDir maxBytes syncLevel).run world =
        (.ok (.ok ((⟨topic, id, partitionDir baseDir topic id, [], maxBytes, syncLevel⟩ :
          Partition).withTiles (tiles.map Tile.reopened))), world) := by
  have sorted := layout.tiled.sorted
  have perm := bases_perm enumerates sorted
    (fun tile member => by
      have offsets := (layout.bounded tile member).offsets
      unfold Tile.nextOffset at offsets
      omega)
    (fun tile member => World.node_ne_none (layout.onDisk tile member).log)
    layout.only
  obtain ⟨after, loaded, rfl⟩ := run_loadSegments (partitionDir baseDir topic id) maxBytes syncLevel
    (readDir (partitionDir baseDir topic id)) (fun _ later => later = world)
    (fun baseOffset => (tileAt tiles baseOffset).reopened.segment (partitionDir baseDir topic id)
      maxBytes syncLevel)
    [] (by
      rintro _ baseOffset _ based rfl
      obtain ⟨tile, member, rfl⟩ := List.mem_map.mp (perm.mem_iff.mp based)
      rw [tileAt_eq sorted member]
      exact ⟨_, Segment.run_load maxBytes syncLevel (layout.onDisk tile member)
        (layout.bounded tile member) (Filed.small_tile small member), rfl⟩) rfl
  have ordered := insertionSort_loaded (fun baseOffset => (tileAt tiles baseOffset).reopened.segment
    (partitionDir baseDir topic id) maxBytes syncLevel) (tileAt_baseOffset tiles) perm sorted
  have back : tiles.map (fun tile => (tileAt tiles tile.baseOffset).reopened.segment
      (partitionDir baseDir topic id) maxBytes syncLevel) =
      (tiles.map Tile.reopened).map
        (Tile.segment (partitionDir baseDir topic id) maxBytes syncLevel) := by
    rw [List.map_map]
    exact List.map_congr_left fun tile member => by rw [tileAt_eq sorted member]; rfl
  unfold openOrCreate
  simp only
  rw [Program.run_bind_of_run (run_createDirAll_present layout.directory)]
  simp only
  rw [Program.run_bind_of_run loaded]
  simp only
  rw [ordered, back, if_neg (by simpa using layout.tiled.nonempty)]
  rfl

end Partition

private theorem Filed.first {world : World} {dir : Path} (maxBytes : Nat)
    (directory : world.HasDirectory dir) (empty : ∀ name, world.file? (dir ++ [name]) = none)
    (outside : World.SameOutside dir world ((Tile.fresh 0).lay world dir)) :
    Filed ((Tile.fresh 0).lay world dir) dir maxBytes [Tile.fresh 0] where
  tiled := rfl
  bounded := by
    intro tile member
    rw [List.mem_singleton.mp member]
    exact ⟨Nat.zero_le _, Nat.two_pow_pos 64, Nat.two_pow_pos 64⟩
  directory := directory.of_sameOutside outside
  onDisk := by
    intro tile member
    rw [List.mem_singleton.mp member]
    exact Tile.onDisk_lay world dir _
  files := by
    intro name data held
    rcases Tile.node_lay held with before | written
    · have absent := empty name
      rw [World.file?_eq_some.mpr before] at absent
      cases absent
    · exact ⟨Tile.fresh 0, by simp, written⟩

namespace Partition
variable {world : World}

/-- A partition opened on an empty directory has one empty segment. -/
theorem run_openOrCreate_vacant (readDir : Path → List Name) (topic : String) (id : UInt32)
    (baseDir : Path) (maxBytes : Nat) (syncLevel : SyncLevel)
    (vacant : Vacant world (partitionDir baseDir topic id))
    (enumerates : Enumerates world (partitionDir baseDir topic id)
      (readDir (partitionDir baseDir topic id))) :
      (openOrCreate readDir topic id baseDir maxBytes syncLevel).run world =
        (.ok (.ok ((⟨topic, id, partitionDir baseDir topic id, [], maxBytes, syncLevel⟩ :
          Partition).withTiles [Tile.fresh 0])),
          (Tile.fresh 0).lay (world.putDirectories (partitionDir baseDir topic id))
            (partitionDir baseDir topic id)) ∧
      Layout ((Tile.fresh 0).lay (world.putDirectories (partitionDir baseDir topic id))
        (partitionDir baseDir topic id)) (partitionDir baseDir topic id) maxBytes
          [Tile.fresh 0] := by
  have nothing : readDir (partitionDir baseDir topic id) = [] := by
    rw [List.eq_nil_iff_forall_not_mem]
    intro name member
    exact (enumerates.every name).mp member (vacant.empty name)
  have directory := World.hasDirectory_putDirectories world (partitionDir baseDir topic id)
  have empty : ∀ name, (world.putDirectories (partitionDir baseDir topic id)).node
      (partitionDir baseDir topic id ++ [name]) = none := by
    intro name
    have notAbove : ¬ (partitionDir baseDir topic id ++ [name] <+:
        partitionDir baseDir topic id) := by
      intro above
      have length := above.length_le
      simp at length
    simp only [World.putDirectories, notAbove, and_false, ↓reduceIte]
    exact vacant.empty name
  have created := Segment.run_create 0 maxBytes syncLevel directory (empty _) (empty _)
  have outside := Tile.fresh_sameOutside (empty (logName 0)) (empty (indexName 0))
  refine ⟨?_, Filed.first maxBytes directory (fun name => by simp [World.file?, empty name])
    outside, fun nests => ?_⟩
  rotate_left
  · obtain ⟨name, present⟩ := (outside.nests_iff _).mp nests
    rw [empty name] at present
    cases present
  unfold openOrCreate
  simp only [nothing]
  rw [Program.run_bind_of_run (run_createDirAll vacant.clear)]
  simp only [loadSegments]
  rw [Program.run_bind_of_run (Program.run_pure _ _)]
  simp only [List.insertionSort_nil, ↓reduceIte]
  rw [Program.run_bind_of_run created]
  rfl

end Partition

namespace Partition
variable {world : World} {dir : Path}

/-- Without files the scan finds nothing, or trips over a directory named like a log. -/
private theorem loadSegments_no_files (maxBytes : Nat) (syncLevel : SyncLevel)
    (empty : ∀ name, world.file? (dir ++ [name]) = none) (listing : List Name) :
    (loadSegments dir maxBytes syncLevel listing).Ensures world False fun answer after =>
      after = world ∧ (answer = .ok [] ∨ ∃ error, answer = .error (.io error)) := by
  induction listing with
  | nil => exact Program.ensures_of_run rfl ⟨rfl, .inl rfl⟩
  | cons entry rest ih =>
    unfold loadSegments
    split
    · exact ih
    · rename_i baseOffset _
      obtain ⟨error, refused⟩ := File.run_openWith_absent (empty (logName baseOffset))
      refine Program.ensures_bind_of_run (Program.run_bind_of_run refused _) ?_
      exact Program.ensures_of_run rfl ⟨rfl, .inr ⟨error, rfl⟩⟩

/-- What `open_or_create` leaves on a directory without files. -/
structure Fresh (world after : World) (topic : String) (id : UInt32) (baseDir : Path)
    (maxBytes : Nat) (syncLevel : SyncLevel) (partition : Partition) : Prop where
  shape : partition = (⟨topic, id, partitionDir baseDir topic id, [], maxBytes, syncLevel⟩ :
    Partition).withTiles [Tile.fresh 0]
  clear : ∀ ancestor, ancestor ≠ [] → ancestor <+: partitionDir baseDir topic id →
    world.file? ancestor = none
  filed : Filed after (partitionDir baseDir topic id) maxBytes [Tile.fresh 0]
  outside : World.SameOutside (partitionDir baseDir topic id)
    (world.putDirectories (partitionDir baseDir topic id)) after

/-- On a directory without files `open_or_create` starts a new partition or
fails with an I/O error, whatever directories lie inside or files above. -/
theorem openOrCreate_ensures (readDir : Path → List Name) (topic : String) (id : UInt32)
    (baseDir : Path) (maxBytes : Nat) (syncLevel : SyncLevel)
    (empty : ∀ name, world.file? (partitionDir baseDir topic id ++ [name]) = none) :
    (openOrCreate readDir topic id baseDir maxBytes syncLevel).Ensures world False
      fun answer after =>
      (∃ error, answer = .error (.io error)) ∨
        ∃ partition, answer = .ok partition ∧
        Fresh world after topic id baseDir maxBytes syncLevel partition := by
  by_cases clear : ∀ ancestor, ancestor ≠ [] → ancestor <+: partitionDir baseDir topic id →
      world.file? ancestor = none
  · have directory := World.hasDirectory_putDirectories world (partitionDir baseDir topic id)
    have noFile : ∀ name, (world.putDirectories (partitionDir baseDir topic id)).file?
        (partitionDir baseDir topic id ++ [name]) = none := by
      intro name
      have notAbove : ¬ (partitionDir baseDir topic id ++ [name] <+:
          partitionDir baseDir topic id) := by
        intro above
        have length := above.length_le
        simp at length
      simpa only [World.file?, World.putDirectories, notAbove, and_false,
        ↓reduceIte] using empty name
    refine Program.ensures_bind_of_run (run_createDirAll clear) (Program.ensures_bind
      (loadSegments_no_files maxBytes syncLevel noFile _) ?_)
    rintro _ _ ⟨rfl, rfl | ⟨error, rfl⟩⟩
    · refine Program.ensures_bind
        (Segment.create_ensures 0 maxBytes syncLevel directory (noFile _) (noFile _)) ?_
      rintro _ _ (⟨-, error, rfl⟩ | ⟨freeLog, freeIndex, rfl, rfl⟩)
      · exact Program.ensures_of_run rfl (.inl ⟨error, rfl⟩)
      · have outside := Tile.fresh_sameOutside freeLog freeIndex
        exact Program.ensures_of_run rfl
          (.inr ⟨_, rfl, rfl, clear, Filed.first maxBytes directory noFile outside, outside⟩)
    · exact Program.ensures_of_run rfl (.inl ⟨error, rfl⟩)
  · simp only [not_forall] at clear
    obtain ⟨ancestor, below, above, held⟩ := clear
    exact Program.ensures_bind_of_run (run_createDirAll_blocked below above held)
      (Program.ensures_of_run rfl (.inl ⟨_, rfl⟩))

end Partition

/-- No two files of the tiles share a name. -/
theorem nodup_names {tiles : List Tile}
    (sorted : tiles.Pairwise (fun a b => a.baseOffset < b.baseOffset)) :
    (tiles.flatMap fun tile => [logName tile.baseOffset, indexName tile.baseOffset]).Nodup := by
  refine List.nodup_flatMap.mpr ⟨fun tile _ => ?_, sorted.imp fun less => ?_⟩
  · simp [logName_ne_indexName]
  · intro name inFirst inSecond
    simp only [List.mem_cons, List.not_mem_nil, or_false] at inFirst inSecond
    rcases inFirst with rfl | rfl <;> rcases inSecond with same | same
    · exact Nat.ne_of_lt less (logName_injective same)
    · exact logName_ne_indexName _ _ same
    · exact logName_ne_indexName _ _ same.symm
    · exact Nat.ne_of_lt less (indexName_injective same)

/-- The files of the tiles in their order are one enumeration of the directory. -/
theorem Layout.enumerates {world : World} {dir : Path} {tiles : List Tile}
    (layout : Layout world dir maxBytes tiles) :
    Enumerates world dir (tiles.flatMap fun tile =>
      [logName tile.baseOffset, indexName tile.baseOffset]) where
  once := nodup_names layout.tiled.sorted
  every := by
    intro name
    rw [List.mem_flatMap]
    constructor
    · rintro ⟨tile, member, named⟩
      simp only [List.mem_cons, List.not_mem_nil, or_false] at named
      rcases named with rfl | rfl
      · exact World.node_ne_none (layout.onDisk tile member).log
      · exact World.node_ne_none (layout.onDisk tile member).index
    · intro present
      obtain ⟨tile, member, named⟩ := layout.only name present
      exact ⟨tile, member, by simpa using named⟩

end Ruka
