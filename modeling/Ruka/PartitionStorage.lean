import Ruka.PartitionLog
import Ruka.SegmentReads
import Ruka.TiledBlocks

/-! What a partition keeps on disk and in memory, and what appending does to
it. The layout of a partition is its list of tiles; the messages of the tiles
in order are the contents of the partition. -/
namespace Ruka
open BigEndian LexicalPaths FilePrograms DecimalNames TiledBlocks

/-- The messages of a partition in the order of their offsets. -/
def contents (tiles : List Tile) : List Message := tiles.flatMap Tile.messages

theorem contents_fresh (tiles : List Tile) (baseOffset : Nat) :
    contents (tiles ++ [Tile.fresh baseOffset]) = contents tiles := by
  simp [contents, Tile.fresh]

theorem contents_extend (front : List Tile) (last : Tile) (more : List Message) :
    contents (front ++ [last.extend more]) = contents (front ++ [last]) ++ more := by
  simp [contents, Tile.extend]

/-- The tiles of a partition lie gapless in its directory, and no other file does. -/
structure Filed (world : World) (dir : Path) (maxBytes : Nat) (tiles : List Tile) : Prop where
  tiled : Tiled Tile.baseOffset Tile.messages 0 tiles
  bounded : ∀ tile ∈ tiles, tile.Bounded maxBytes
  directory : world.HasDirectory dir
  onDisk : ∀ tile ∈ tiles, tile.OnDisk world dir
  files : ∀ name data, world.node (dir ++ [name]) = some (.file data) →
    ∃ tile ∈ tiles, name = logName tile.baseOffset ∨ name = indexName tile.baseOffset

/-- A partition that has its directory to itself: no other directory lies in it. -/
structure Layout (world : World) (dir : Path) (maxBytes : Nat) (tiles : List Tile) : Prop
    extends Filed world dir maxBytes tiles where
  sole : ¬ world.Nests dir

namespace Tile
variable {world : World} {dir : Path} {tile other : Tile}

theorem OnDisk.of_same (disk : tile.OnDisk world dir)
    (same : ∀ name, after.file? (dir ++ [name]) = world.file? (dir ++ [name])) :
    tile.OnDisk after dir := by
  constructor
  · rw [logPath, same]
    exact disk.log
  · rw [indexPath, same]
    exact disk.index

/-- A tile takes the place of files or of nothing. -/
theorem lay_sameOutside (log : world.node (logPath dir tile.baseOffset) ≠ some .directory)
    (index : world.node (indexPath dir tile.baseOffset) ≠ some .directory) :
    World.SameOutside dir world (tile.lay world dir) := by
  refine (World.sameOutside_put _ log).trans (World.sameOutside_put _ ?_)
  have apart := Ne.symm (logPath_ne_indexPath dir tile.baseOffset tile.baseOffset)
  exact (World.node_put_ne world _ apart).symm ▸ index

private theorem OnDisk.lay_sameOutside (disk : tile.OnDisk world dir)
    (base : other.baseOffset = tile.baseOffset) :
    World.SameOutside dir world (other.lay world dir) := by
  refine Tile.lay_sameOutside ?_ ?_
  · rw [base, World.file?_eq_some.mp disk.log]
    exact nofun
  · rw [base, World.file?_eq_some.mp disk.index]
    exact nofun

/-- A new tile takes the place of nothing. -/
theorem fresh_sameOutside {baseOffset : Nat} (freeLog : world.node (logPath dir baseOffset) = none)
    (freeIndex : world.node (indexPath dir baseOffset) = none) :
    World.SameOutside dir world ((Tile.fresh baseOffset).lay world dir) := by
  refine Tile.lay_sameOutside ?_ ?_
  · rw [show (Tile.fresh baseOffset).baseOffset = baseOffset from rfl, freeLog]
    exact nofun
  · rw [show (Tile.fresh baseOffset).baseOffset = baseOffset from rfl, freeIndex]
    exact nofun

theorem onDisk_lay (world : World) (dir : Path) (tile : Tile) :
    tile.OnDisk (tile.lay world dir) dir := by
  refine ⟨?_, World.file?_put _ _ _⟩
  rw [lay, World.file?_put_ne _ _ (logPath_ne_indexPath dir _ _), World.file?_put]

/-- Writing one tile leaves the others where they are. -/
theorem OnDisk.lay (disk : tile.OnDisk world dir) (apart : tile.baseOffset ≠ other.baseOffset) :
    tile.OnDisk (other.lay world dir) dir := by
  have logs : logPath dir tile.baseOffset ≠ logPath dir other.baseOffset := fun same =>
    apart (logName_injective (by simpa [logPath] using same))
  have indexes : indexPath dir tile.baseOffset ≠ indexPath dir other.baseOffset := fun same =>
    apart (indexName_injective (by simpa [indexPath] using same))
  constructor
  · rw [Tile.lay, World.file?_put_ne _ _ (logPath_ne_indexPath dir _ _),
      World.file?_put_ne _ _ logs, disk.log]
  · rw [Tile.lay, World.file?_put_ne _ _ indexes,
      World.file?_put_ne _ _ (Ne.symm (logPath_ne_indexPath dir _ _)), disk.index]

theorem node_lay (held : (tile.lay world dir).node (dir ++ [name]) = some node) :
    world.node (dir ++ [name]) = some node ∨ name = logName tile.baseOffset ∨
    name = indexName tile.baseOffset := by
  by_cases log : name = logName tile.baseOffset
  · exact .inr (.inl log)
  by_cases index : name = indexName tile.baseOffset
  · exact .inr (.inr index)
  left
  have notLog : dir ++ [name] ≠ logPath dir tile.baseOffset := by simpa [logPath] using log
  have notIndex : dir ++ [name] ≠ indexPath dir tile.baseOffset := by simpa [indexPath] using index
  rwa [lay, World.node_put_ne _ _ notIndex, World.node_put_ne _ _ notLog] at held

end Tile

namespace Filed
variable {world after : World} {dir : Path} {tiles front back : List Tile} {tile last : Tile}

/-- Only the files of the directory matter, and that it stays a directory. -/
theorem of_same (filed : Filed world dir maxBytes tiles)
    (same : ∀ name, after.file? (dir ++ [name]) = world.file? (dir ++ [name]))
    (directory : after.HasDirectory dir) : Filed after dir maxBytes tiles where
  tiled := filed.tiled
  bounded := filed.bounded
  directory := directory
  onDisk := fun tile member => (filed.onDisk tile member).of_same same
  files := by
    intro name data held
    rw [← World.file?_eq_some, same, World.file?_eq_some] at held
    exact filed.files name data held

private theorem tick (filed : Filed world dir maxBytes tiles) :
    Filed world.tick dir maxBytes tiles :=
  filed.of_same (fun _ => rfl) filed.directory

private theorem extend_sameOutside (filed : Filed world dir maxBytes (front ++ [last]))
    (more : List Message) : World.SameOutside dir world ((last.extend more).lay world dir) :=
  (filed.onDisk last (by simp)).lay_sameOutside rfl

/-- The last tile written anew with more messages. -/
theorem extend (filed : Filed world dir maxBytes (front ++ [last])) (more : List Message)
    (bounded : (last.extend more).Bounded maxBytes) :
    Filed ((last.extend more).lay world dir) dir maxBytes (front ++ [last.extend more]) where
  tiled := filed.tiled.replace_last rfl
  bounded := by
    intro tile member
    rcases List.mem_append.mp member with inFront | isLast
    · exact filed.bounded tile (by simp [inFront])
    · rw [List.mem_singleton.mp isLast]
      exact bounded
  directory := filed.directory.of_sameOutside (filed.extend_sameOutside more)
  onDisk := by
    intro tile member
    rcases List.mem_append.mp member with inFront | isLast
    · have apart := (List.pairwise_append.mp filed.tiled.sorted).2.2 tile inFront last (by simp)
      exact (filed.onDisk tile (by simp [inFront])).lay (Nat.ne_of_lt apart)
    · rw [List.mem_singleton.mp isLast]
      exact Tile.onDisk_lay world dir _
  files := by
    intro name data held
    rcases Tile.node_lay held with before | written
    · obtain ⟨tile, member, named⟩ := filed.files name data before
      rcases List.mem_append.mp member with inFront | isLast
      · exact ⟨tile, by simp [inFront], named⟩
      · rw [List.mem_singleton.mp isLast] at named
        exact ⟨last.extend more, by simp, named⟩
    · exact ⟨last.extend more, by simp, written⟩

/-- No tile starts where a last tile with messages ends. -/
theorem base_lt_nextOffset (filed : Filed world dir maxBytes (front ++ [last]))
    (held : last.messages ≠ []) (member : tile ∈ front ++ [last]) :
    tile.baseOffset < last.nextOffset := by
  have positive := List.length_pos_iff.mpr held
  unfold Tile.nextOffset
  rcases List.mem_append.mp member with inFront | isLast
  · have below := (List.pairwise_append.mp filed.tiled.sorted).2.2 tile inFront last (by simp)
    omega
  · rw [List.mem_singleton.mp isLast]
    omega

/-- A new tile behind the last one. -/
theorem rotate (filed : Filed world dir maxBytes (front ++ [last])) (held : last.messages ≠ [])
    (outside : World.SameOutside dir world ((Tile.fresh last.nextOffset).lay world dir)) :
    Filed ((Tile.fresh last.nextOffset).lay world dir) dir maxBytes
      (front ++ [last] ++ [Tile.fresh last.nextOffset]) where
  tiled := filed.tiled.snoc held rfl
  bounded := by
    intro tile member
    rcases List.mem_append.mp member with before | isFresh
    · exact filed.bounded tile before
    · have offsets := (filed.bounded last (by simp)).offsets
      rw [List.mem_singleton.mp isFresh]
      exact ⟨Nat.zero_le _, Nat.two_pow_pos 64,
        by simpa [Tile.nextOffset, Tile.fresh] using offsets⟩
  directory := filed.directory.of_sameOutside outside
  onDisk := by
    intro tile member
    rcases List.mem_append.mp member with before | isFresh
    · exact (filed.onDisk tile before).lay (Nat.ne_of_lt (filed.base_lt_nextOffset held before))
    · rw [List.mem_singleton.mp isFresh]
      exact Tile.onDisk_lay world dir _
  files := by
    intro name data present
    rcases Tile.node_lay present with before | written
    · obtain ⟨tile, member, named⟩ := filed.files name data before
      exact ⟨tile, List.mem_append_left _ member, named⟩
    · exact ⟨Tile.fresh last.nextOffset, by simp, written⟩

/-- No file has a name of the next segment. -/
theorem no_next_file (filed : Filed world dir maxBytes (front ++ [last]))
    (held : last.messages ≠ []) :
    world.file? (logPath dir last.nextOffset) = none ∧
      world.file? (indexPath dir last.nextOffset) = none := by
  have absent : ∀ name, (∀ tile ∈ front ++ [last],
      ¬ (name = logName tile.baseOffset ∨ name = indexName tile.baseOffset)) →
      world.file? (dir ++ [name]) = none := by
    intro name unnamed
    refine Option.eq_none_iff_forall_ne_some.mpr fun data present => ?_
    obtain ⟨tile, member, named⟩ := filed.files name data (World.file?_eq_some.mp present)
    exact unnamed tile member named
  refine ⟨absent _ fun tile member named => ?_, absent _ fun tile member named => ?_⟩
  all_goals have below := filed.base_lt_nextOffset held member
  all_goals rcases named with log | index
  · exact absurd (logName_injective log) (Nat.ne_of_gt below)
  · exact logName_ne_indexName _ _ index
  · exact logName_ne_indexName _ _ log.symm
  · exact absurd (indexName_injective index) (Nat.ne_of_gt below)

theorem nextOffset_eq (filed : Filed world dir maxBytes (front ++ [last])) :
    last.nextOffset = (contents (front ++ [last])).length := by
  have ending := filed.tiled.last_end
  rw [Nat.zero_add] at ending
  exact ending

end Filed

namespace Layout
variable {world after : World} {dir : Path} {tiles front back : List Tile} {tile last : Tile}

/-- Nothing but the files of the tiles is in the directory. -/
theorem only (layout : Layout world dir maxBytes tiles) (name : Name)
    (present : world.node (dir ++ [name]) ≠ none) :
    ∃ tile ∈ tiles, name = logName tile.baseOffset ∨ name = indexName tile.baseOffset := by
  cases held : world.node (dir ++ [name]) with
  | none => exact absurd held present
  | some node =>
    cases node with
    | directory => exact absurd ⟨name, held⟩ layout.sole
    | file data => exact layout.files name data held

/-- A layout says all there is in the directory. -/
theorem node_eq_some (layout : Layout world dir maxBytes tiles)
    (other : Layout after dir maxBytes tiles) (held : world.node (dir ++ [name]) = some node) :
    after.node (dir ++ [name]) = some node := by
  cases node with
  | directory => exact absurd ⟨name, held⟩ layout.sole
  | file data =>
    rw [← World.file?_eq_some] at held ⊢
    obtain ⟨tile, member, rfl | rfl⟩ := layout.files name data (World.file?_eq_some.mp held)
    · exact (other.onDisk tile member).log.trans ((layout.onDisk tile member).log.symm.trans held)
    · exact (other.onDisk tile member).index.trans
        ((layout.onDisk tile member).index.symm.trans held)

theorem node_eq (layout : Layout world dir maxBytes tiles)
    (other : Layout after dir maxBytes tiles) (name : Name) :
    world.node (dir ++ [name]) = after.node (dir ++ [name]) := by
  apply Option.ext
  intro node
  exact ⟨layout.node_eq_some other, other.node_eq_some layout⟩

/-- A partition alone in its directory stays alone. -/
theorem of_filed (layout : Layout world dir maxBytes tiles)
    (filed : Filed after dir maxBytes others) (same : World.SameOutside dir world after) :
    Layout after dir maxBytes others :=
  ⟨filed, fun nests => layout.sole ((same.nests_iff dir).mp nests)⟩

theorem tick (layout : Layout world dir maxBytes tiles) : Layout world.tick dir maxBytes tiles :=
  ⟨layout.toFiled.tick, layout.sole⟩

theorem extend (layout : Layout world dir maxBytes (front ++ [last])) (more : List Message)
    (bounded : (last.extend more).Bounded maxBytes) :
    Layout ((last.extend more).lay world dir) dir maxBytes (front ++ [last.extend more]) :=
  layout.of_filed (layout.toFiled.extend more bounded) (layout.extend_sameOutside more)

/-- The names of the next segment are not taken. -/
theorem free_next (layout : Layout world dir maxBytes (front ++ [last]))
    (held : last.messages ≠ []) :
    world.node (logPath dir last.nextOffset) = none ∧
      world.node (indexPath dir last.nextOffset) = none := by
  obtain ⟨noLog, noIndex⟩ := layout.no_next_file held
  refine ⟨(World.node_of_no_file noLog).resolve_right fun taken => ?_,
    (World.node_of_no_file noIndex).resolve_right fun taken => ?_⟩
  · exact layout.sole ⟨_, taken⟩
  · exact layout.sole ⟨_, taken⟩

theorem rotate (layout : Layout world dir maxBytes (front ++ [last])) (held : last.messages ≠ []) :
    Layout ((Tile.fresh last.nextOffset).lay world dir) dir maxBytes
      (front ++ [last] ++ [Tile.fresh last.nextOffset]) := by
  obtain ⟨freeLog, freeIndex⟩ := layout.free_next held
  have outside := Tile.fresh_sameOutside freeLog freeIndex
  exact layout.of_filed (layout.toFiled.rotate held outside) outside

end Layout

/-- Every log handle is in append mode, as within one process lifetime. -/
def AppendMode (tiles : List Tile) : Prop := ∀ tile ∈ tiles, tile.appendMode = true

namespace Partition
variable {world after : World} {partition : Partition} {tiles front : List Tile} {last tile : Tile}

section Blocks
variable {segment : Path → Nat → SyncLevel → β → Segment} {before back : List β} {block : β}

/-- The partition with the segments of these blocks. -/
def withBlocks (segment : Path → Nat → SyncLevel → β → Segment) (partition : Partition)
    (blocks : List β) : Partition :=
  { partition with
    segments := blocks.map (segment partition.baseDir partition.maxSegmentBytes
      partition.syncLevel) }

theorem getLast?_withBlocks (partition : Partition) (before : List β) (block : β) :
    (partition.withBlocks segment (before ++ [block])).segments.getLast? =
      some (segment partition.baseDir partition.maxSegmentBytes partition.syncLevel block) := by
  simp [withBlocks]

theorem setActive_withBlocks (partition : Partition) (before : List β) (block other : β) :
    (partition.withBlocks segment (before ++ [block])).setActive
        (segment partition.baseDir partition.maxSegmentBytes partition.syncLevel other) =
      partition.withBlocks segment (before ++ [other]) := by
  simp [setActive, withBlocks]

theorem nextOffset_withBlocks (partition : Partition) (before : List β) (block : β) :
    (partition.withBlocks segment (before ++ [block])).nextOffset =
      (segment partition.baseDir partition.maxSegmentBytes partition.syncLevel
        block).nextOffset := by
  rw [nextOffset, getLast?_withBlocks]
  rfl

end Blocks

/-- The partition with these tiles as its segments. -/
abbrev withTiles (partition : Partition) (tiles : List Tile) : Partition :=
  partition.withBlocks Tile.segment tiles

theorem nextOffset_withTiles (partition : Partition) (front : List Tile) (last : Tile) :
    (partition.withTiles (front ++ [last])).nextOffset = last.nextOffset :=
  nextOffset_withBlocks partition front last

/-- An operation on the active segment, with the segment put back. -/
theorem ensures_onActive {self : Partition} {active : Segment}
    (last : self.segments.getLast? = some active) (operation : Segment → Program (α × Segment))
    {post : α × Segment → World → Prop} (holds : (operation active).Ensures world trap post) :
    (self.onActive operation).Ensures world trap fun result after =>
      ∃ answer segment, result = (answer, segment, self.setActive segment) ∧
        post (answer, segment) after := by
  unfold onActive
  rw [last]
  refine Program.ensures_bind holds fun result after met => ?_
  exact Program.ensures_of_run rfl ⟨_, _, rfl, met⟩

theorem onActive_ensures (operation : Segment → Program (α × Segment))
    {post : α × Segment → World → Prop}
    (holds : (operation (last.segment partition.baseDir partition.maxSegmentBytes
      partition.syncLevel)).Ensures world trap post) :
    ((partition.withTiles (front ++ [last])).onActive operation).Ensures world trap
      fun result after =>
      ∃ answer active, result = (answer, active,
        (partition.withTiles (front ++ [last])).setActive active) ∧
        post (answer, active) after := by
  exact ensures_onActive (getLast?_withBlocks partition front last) operation holds

/-- A rotation opens the next segment, or fails on a directory in its place. -/
theorem rotate_ensures
    (filed : Filed world partition.baseDir partition.maxSegmentBytes (front ++ [last]))
    (held : last.messages ≠ []) : ((partition.withTiles (front ++ [last])).rotate
        (last.segment partition.baseDir partition.maxSegmentBytes
          partition.syncLevel)).Ensures world False
      fun reply after =>
        (world.Nests partition.baseDir ∧ ∃ error self, reply = (.error (.io error), self)) ∨
          (reply = (.ok (), partition.withTiles (front ++ [last] ++ [Tile.fresh last.nextOffset])) ∧
            after = (Tile.fresh last.nextOffset).lay world partition.baseDir ∧
            World.SameOutside partition.baseDir world
              ((Tile.fresh last.nextOffset).lay world partition.baseDir)) := by
  obtain ⟨noLog, noIndex⟩ := filed.no_next_file held
  have created := Segment.create_ensures last.nextOffset partition.maxSegmentBytes
    partition.syncLevel filed.directory noLog noIndex
  unfold rotate Segment.flush
  refine Program.ensures_bind_of_run (Program.run_pure _ _) (Program.ensures_bind created ?_)
  rintro _ _ (⟨nests, error, rfl⟩ | ⟨freeLog, freeIndex, rfl, rfl⟩)
  · exact Program.ensures_of_run rfl (.inl ⟨nests, error, _, rfl⟩)
  · refine Program.ensures_of_run rfl (.inr ⟨?_, rfl, Tile.fresh_sameOutside freeLog freeIndex⟩)
    simp [withBlocks]

theorem run_rotate
    (layout : Layout world partition.baseDir partition.maxSegmentBytes (front ++ [last]))
    (held : last.messages ≠ []) : ((partition.withTiles (front ++ [last])).rotate
        (last.segment partition.baseDir partition.maxSegmentBytes partition.syncLevel)).run world =
      (.ok (.ok (), partition.withTiles (front ++ [last] ++ [Tile.fresh last.nextOffset])),
        (Tile.fresh last.nextOffset).lay world partition.baseDir) := by
  obtain ⟨_, _, ran, ⟨nests, -⟩ | ⟨rfl, rfl, -⟩⟩ :=
    (rotate_ensures layout.toFiled held).returns not_false
  · exact absurd nests layout.sole
  · exact ran

/-- The partition after more messages were appended, and the disk it is on. -/
def Grown (world : World) (partition : Partition) (tiles : List Tile) (more : List Message)
    (after : World) (result : Partition) : Prop :=
  ∃ grown, result = partition.withTiles grown ∧
    Filed after partition.baseDir partition.maxSegmentBytes grown ∧
    contents grown = contents tiles ++ more ∧ (AppendMode tiles → AppendMode grown) ∧
    World.SameOutside partition.baseDir world after ∧ (more = [] → tiles <+: grown)

/-- How `Partition::append` can end. An I/O error means that a directory stands
in the place of the next segment. -/
inductive AppendEnds (world : World) (partition : Partition) (tiles : List Tile)
    (key value : Option Bytes) : Except RukaError Nat × Partition → World → Prop
  | tooLarge (large : partition.maxSegmentBytes < recordLen key value) :
      AppendEnds world partition tiles key value (.error .messageTooLarge,
        partition.withTiles tiles) world
  | blocked (nests : world.Nests partition.baseDir) (error : IoError) (result : Partition)
      (after : World) :
      AppendEnds world partition tiles key value (.error (.io error), result) after
  | stored (stamp : UInt64) {after : World} {result : Partition}
      (grown : Grown world partition tiles [⟨stamp, key, value⟩] after result) :
      AppendEnds world partition tiles key value (.ok (contents tiles).length, result) after

private theorem Grown.stored
    (filed : Filed world partition.baseDir partition.maxSegmentBytes (front ++ [last]))
    (more : List Message) (nonempty : more ≠ [])
    (bounded : (last.extend more).Bounded partition.maxSegmentBytes) :
    Grown world partition (front ++ [last]) more
      ((last.extend more).lay world.tick partition.baseDir)
        (partition.withTiles (front ++ [last.extend more])) := by
  refine ⟨front ++ [last.extend more], rfl, filed.tick.extend more bounded, ?_, ?_,
    filed.tick.extend_sameOutside more, fun empty => absurd empty nonempty⟩
  · exact contents_extend front last more
  · intro mode tile member
    rcases List.mem_append.mp member with inFront | isLast
    · exact mode tile (by simp [inFront])
    · rw [List.mem_singleton.mp isLast]
      exact mode last (by simp)

/-- What happens after a rotation happens to the partition as a whole. -/
theorem Grown.after_rotation
    (rotated : World.SameOutside partition.baseDir world
      ((Tile.fresh last.nextOffset).lay world partition.baseDir))
    (grown : Grown ((Tile.fresh last.nextOffset).lay world partition.baseDir) partition
      (front ++ [last] ++ [Tile.fresh last.nextOffset]) more after result) :
    Grown world partition (front ++ [last]) more after result := by
  obtain ⟨tiles, shape, filed, appended, mode, outside, held⟩ := grown
  refine ⟨tiles, shape, filed, ?_, fun before => mode fun tile member => ?_,
    rotated.trans outside, fun empty => (List.prefix_append _ _).trans (held empty)⟩
  · rw [appended, contents_fresh]
  · rcases List.mem_append.mp member with old | isFresh
    · exact before tile old
    · rw [List.mem_singleton.mp isFresh]
      rfl

theorem append_ensures
    (filed : Filed world partition.baseDir partition.maxSegmentBytes (front ++ [last]))
    (key value : Option Bytes)
    (atEnd : last.bytes.length + recordLen key value ≤ partition.maxSegmentBytes → last.AtEnd) :
    ((partition.withTiles (front ++ [last])).append key value).Ensures world
      (Segment.Overflows partition.maxSegmentBytes (contents (front ++ [last])).length 1)
      (AppendEnds world partition (front ++ [last]) key value) := by
  have next := filed.nextOffset_eq
  have first : ((last.segment partition.baseDir partition.maxSegmentBytes
      partition.syncLevel).append key value).Ensures world _ _ :=
    Segment.append_ensures (filed.onDisk last (by simp)) (filed.bounded last (by simp))
      key value atEnd
  rw [← next]
  apply Program.ensures_bind (onActive_ensures (·.append key value) first)
  rintro _ after ⟨answer, active, rfl, ended⟩
  cases ended with
  | tooLarge large =>
    rw [setActive_withBlocks]
    exact Program.ensures_of_run rfl (.tooLarge large)
  | stored stamp bounded =>
    rw [setActive_withBlocks, next]
    exact Program.ensures_of_run rfl (.stored stamp (Grown.stored filed _ (by simp) bounded))
  | full fits held =>
    rw [setActive_withBlocks]
    refine Program.ensures_bind ((rotate_ensures filed held).mono False.elim
      fun _ _ ended => ended) ?_
    rintro _ _ (⟨nests, error, self, rfl⟩ | ⟨rfl, rfl, outside⟩)
    · exact Program.ensures_of_run rfl (.blocked nests error self _)
    have rotated := filed.rotate held outside
    have second : (((Tile.fresh last.nextOffset).segment partition.baseDir partition.maxSegmentBytes
        partition.syncLevel).append key value).Ensures
        ((Tile.fresh last.nextOffset).lay world partition.baseDir) _ _ :=
      Segment.append_ensures (rotated.onDisk _ (by simp)) (rotated.bounded _ (by simp)) key value
        fun _ => .inl rfl
    apply Program.ensures_bind (onActive_ensures (·.append key value) second)
    rintro _ after ⟨answer, active, rfl, ended⟩
    cases ended with
    | tooLarge large => omega
    | full _ stillHeld => exact absurd rfl stillHeld
    | stored stamp bounded =>
      have ended : AppendEnds world partition (front ++ [last]) key value _ _ :=
        .stored stamp ((Grown.stored rotated _ (by simp) bounded).after_rotation outside)
      rw [← next] at ended
      rw [setActive_withBlocks]
      exact Program.ensures_of_run rfl ended

/-- A batch with a payload that is too large, found before anything is written:
the payloads in front of it fit one segment together, behind the `size` bytes of
the active one, or in a new one if already the first does not fit there. -/
def RejectedWhole (maxBytes size : Nat) (payloads : List Bytes) : Prop :=
  ∃ before payload rest, payloads = before ++ payload :: rest ∧ maxBytes < 28 + payload.length ∧
    Segment.recordsLen before ≤ maxBytes ∧
    (size + Segment.recordsLen before ≤ maxBytes ∨
      ∀ first ∈ before.head?, maxBytes < size + (28 + first.length))

private theorem rejectedWhole_of_leading {maxBytes size : Nat} (fits : size ≤ maxBytes)
    (shape : payloads = Segment.leading maxBytes size payloads ++ payload :: rest)
    (large : maxBytes < 28 + payload.length) : RejectedWhole maxBytes size payloads := by
  have room := Segment.recordsLen_leading fits payloads
  exact ⟨_, payload, rest, shape, large, by omega, .inl room⟩

/-- Nothing fits behind `size` bytes, so the batch starts a new segment. -/
theorem rejectedWhole_iff_of_full {maxBytes size : Nat} (nonempty : payloads ≠ [])
    (nothing : Segment.leading maxBytes size payloads = [])
    (admitted : ∀ payload ∈ payloads.head?, 28 + payload.length ≤ maxBytes) :
    RejectedWhole maxBytes 0 payloads ↔ RejectedWhole maxBytes size payloads := by
  obtain ⟨first, more, rfl⟩ := List.exists_cons_of_ne_nil nonempty
  have small : 28 + first.length ≤ maxBytes := admitted first rfl
  have crowded : maxBytes < size + Segment.recordsLen [] + (28 + first.length) :=
    Segment.crowded_of_leading nothing
  constructor
  · rintro ⟨before, payload, rest, shape, large, room, -⟩
    refine ⟨before, payload, rest, shape, large, room, .inr ?_⟩
    intro other isFirst
    cases before with
    | nil => cases isFirst
    | cons head tail =>
      cases isFirst
      rw [(List.cons_eq_cons.mp shape).1] at crowded
      exact crowded
  · rintro ⟨before, payload, rest, shape, large, room, -⟩
    exact ⟨before, payload, rest, shape, large, room, .inl (by omega)⟩

/-- The first write stopped at a payload a new segment takes. -/
theorem not_rejectedWhole_of_stored {maxBytes size : Nat} (progress : taken ≠ [])
    (most : taken = Segment.leading maxBytes size (taken ++ rest))
    (admitted : ∀ payload ∈ rest.head?, 28 + payload.length ≤ maxBytes) :
    ¬ RejectedWhole maxBytes size (taken ++ rest) := by
  rintro ⟨before, payload, behind, shape, large, -, fits | crowded⟩
  · rw [shape, Segment.leading_of_fits before behind large fits] at most
    rw [most] at shape
    have tail : rest = payload :: behind := List.append_cancel_left shape
    have small := admitted payload (by rw [tail]; rfl)
    omega
  · obtain ⟨first, more, rfl⟩ := List.exists_cons_of_ne_nil progress
    have room : size + (28 + first.length) ≤ maxBytes := by
      rw [List.cons_append, Segment.leading] at most
      split at most
      · assumption
      · cases most
    cases before with
    | nil =>
      cases (List.cons_eq_cons.mp shape).1
      omega
    | cons head tail =>
      cases (List.cons_eq_cons.mp shape).1
      have beyond := crowded first rfl
      omega

/-- How `Partition::append_batch` can end: a payload that is too large stops
the batch, but what was written before it stays. The batch meets an active
segment of `size` bytes. -/
inductive BatchEnds (world : World) (partition : Partition) (tiles : List Tile)
    (payloads : List Bytes) (size : Nat) (baseOffset : Option Nat) :
    Except RukaError Nat × Partition → World → Prop
  | tooLarge {taken rest : List Bytes} {more : List Message} {after : World} {result : Partition}
      (shape : payloads = taken ++ rest)
      (large : ∃ payload ∈ rest, partition.maxSegmentBytes < 28 + payload.length)
      (same : more.map Message.content = taken.map fun payload => (none, some payload))
      (grown : Grown world partition tiles more after result)
      (whole : taken = [] ↔ RejectedWhole partition.maxSegmentBytes size payloads) :
      BatchEnds world partition tiles payloads size baseOffset
        (.error .messageTooLarge, result) after
  | blocked (nests : world.Nests partition.baseDir) (error : IoError) (result : Partition)
      (after : World) :
      BatchEnds world partition tiles payloads size baseOffset (.error (.io error), result) after
  | stored {more : List Message} {after : World} {result : Partition}
      (same : more.map Message.content = payloads.map fun payload => (none, some payload))
      (grown : Grown world partition tiles more after result) :
      BatchEnds world partition tiles payloads size baseOffset
        (.ok (baseOffset.getD (contents tiles).length), result) after

private theorem Grown.refl (filed : Filed world partition.baseDir partition.maxSegmentBytes tiles) :
    Grown world partition tiles [] world (partition.withTiles tiles) :=
  ⟨tiles, rfl, filed, by simp, fun mode => mode, World.SameOutside.refl _ _,
    fun _ => List.prefix_refl _⟩

/-- What happens after a write happens to the partition as a whole. -/
theorem Grown.after_stored (nonempty : more ≠ [])
    (stored : World.SameOutside partition.baseDir world
      ((last.extend more).lay world.tick partition.baseDir))
    (grown : Grown ((last.extend more).lay world.tick partition.baseDir) partition
      (front ++ [last.extend more]) rest after result) :
    Grown world partition (front ++ [last]) (more ++ rest) after result := by
  obtain ⟨tiles, shape, filed, appended, mode, outside, -⟩ := grown
  refine ⟨tiles, shape, filed, ?_, fun before => mode fun tile member => ?_,
    stored.trans outside, fun empty => absurd (List.append_eq_nil_iff.mp empty).1 nonempty⟩
  · rw [appended, contents_extend, List.append_assoc]
  · rcases List.mem_append.mp member with inFront | isLast
    · exact before tile (by simp [inFront])
    · rw [List.mem_singleton.mp isLast]
      exact before last (by simp)

private theorem BatchEnds.after_rotation
    (rotated : World.SameOutside partition.baseDir world
      ((Tile.fresh last.nextOffset).lay world partition.baseDir))
    (ended : BatchEnds ((Tile.fresh last.nextOffset).lay world partition.baseDir) partition
      (front ++ [last] ++ [Tile.fresh last.nextOffset]) payloads size baseOffset answer after) :
    BatchEnds world partition (front ++ [last]) payloads size baseOffset answer after := by
  cases ended with
  | tooLarge shape large same grown whole =>
    exact .tooLarge shape large same (grown.after_rotation rotated) whole
  | blocked nests error result after =>
    exact .blocked ((rotated.nests_iff _).mp nests) error result after
  | stored same grown =>
    rw [contents_fresh]
    exact .stored same (grown.after_rotation rotated)

/-- Reading the clock first makes no difference. -/
theorem BatchEnds.of_tick
    (ended : BatchEnds world.tick partition tiles payloads size baseOffset answer after) :
    BatchEnds world partition tiles payloads size baseOffset answer after := by
  cases ended with
  | tooLarge shape large same grown whole => exact .tooLarge shape large same grown whole
  | blocked nests error result after =>
    have same : world.Nests partition.baseDir := nests
    exact .blocked same error result after
  | stored same grown => exact .stored same grown

private theorem BatchEnds.resize
    (ended : BatchEnds world partition tiles payloads size baseOffset answer after)
    (same : RejectedWhole partition.maxSegmentBytes size payloads ↔
      RejectedWhole partition.maxSegmentBytes other payloads) :
    BatchEnds world partition tiles payloads other baseOffset answer after := by
  cases ended with
  | tooLarge shape large content grown whole =>
    exact .tooLarge shape large content grown (whole.trans same)
  | blocked nests error result after => exact .blocked nests error result after
  | stored content grown => exact .stored content grown

/-- The payloads of one write followed by what the rest of the loop does. -/
theorem BatchEnds.after_stored (stamp : UInt64) (taken : List Bytes) (progress : taken ≠ [])
    (parted : ¬ RejectedWhole partition.maxSegmentBytes size (taken ++ rest))
    (stored : World.SameOutside partition.baseDir world
      ((last.extend (Segment.stamped stamp taken)).lay world.tick partition.baseDir))
    (ended : BatchEnds ((last.extend (Segment.stamped stamp taken)).lay world.tick
      partition.baseDir) partition (front ++ [last.extend (Segment.stamped stamp taken)]) rest left
      (some (baseOffset.getD (contents (front ++ [last])).length)) answer after) :
    BatchEnds world partition (front ++ [last]) (taken ++ rest) size baseOffset answer after := by
  have nonempty : Segment.stamped stamp taken ≠ [] := by simpa [Segment.stamped] using progress
  cases ended with
  | tooLarge shape large same grown whole =>
    refine .tooLarge (by rw [shape, List.append_assoc]) large ?_
      (grown.after_stored nonempty stored) ?_
    · rw [List.map_append, List.map_append, Segment.stamped_content, same]
    · exact iff_of_false (fun empty => progress (List.append_eq_nil_iff.mp empty).1) parted
  | blocked nests error result after =>
    exact .blocked ((stored.nests_iff _).mp nests) error result after
  | stored same grown =>
    refine .stored ?_ (grown.after_stored nonempty stored)
    rw [List.map_append, List.map_append, Segment.stamped_content, same]

/-- The loop of `append_batch`. It writes at least one payload in every second
round, since a segment just opened takes what the limit admits. -/
theorem appendPayloads_ensures (fuel : Nat)
    (filed : Filed world partition.baseDir partition.maxSegmentBytes (front ++ [last]))
    (payloads : List Bytes) (baseOffset : Option Nat)
    (atEnd : Segment.Begins partition.maxSegmentBytes last.bytes.length payloads → last.AtEnd)
    (enough : 2 * payloads.length + 1 ≤ fuel ∨
      (last.messages = [] ∧ payloads ≠ [] ∧ 2 * payloads.length ≤ fuel)) :
    (appendPayloads fuel (partition.withTiles (front ++ [last])) payloads baseOffset).Ensures world
      (Segment.Overflows partition.maxSegmentBytes (contents (front ++ [last])).length
        payloads.length)
      (BatchEnds world partition (front ++ [last]) payloads last.bytes.length baseOffset) := by
  induction fuel generalizing world front last payloads baseOffset with
  | zero =>
    rcases enough with impossible | ⟨-, nonempty, impossible⟩
    · omega
    · exact absurd (List.length_eq_zero_iff.mp (by omega)) nonempty
  | succ fuel ih =>
    have next := filed.nextOffset_eq
    unfold appendPayloads
    split
    · rename_i exhausted
      have ended : BatchEnds world partition (front ++ [last]) payloads last.bytes.length
          baseOffset _ _ :=
        .stored (by rw [exhausted]; rfl) (Grown.refl filed)
      rw [nextOffset_withTiles, next]
      exact Program.ensures_of_run rfl ended
    rename_i nonempty
    have positive := List.length_pos_iff.mpr nonempty
    have first : ((last.segment partition.baseDir partition.maxSegmentBytes
        partition.syncLevel).appendBatch payloads).Ensures world _ _ :=
      Segment.appendBatch_ensures (filed.onDisk last (by simp)) (filed.bounded last (by simp))
        payloads atEnd nonempty
    rw [← next]
    apply Program.ensures_bind (onActive_ensures (·.appendBatch payloads) first)
    rintro _ after ⟨answer, active, rfl, ended⟩
    rw [next]
    cases ended with
    | tooLarge payload rest shape large =>
      rw [setActive_withBlocks]
      have unchanged : Grown world partition (front ++ [last]) [] world.tick _ :=
        Grown.refl filed.tick
      have member : payload ∈ payloads := by
        rw [shape]
        simp
      have whole := rejectedWhole_of_leading (filed.bounded last (by simp)).size shape large
      exact Program.ensures_of_run rfl
        (.tooLarge (List.nil_append payloads).symm ⟨payload, member, large⟩ rfl unchanged
          (iff_of_true rfl whole))
    | full held nothing admitted =>
      have rounds : 2 * payloads.length ≤ fuel := by
        rcases enough with more | ⟨empty, -, -⟩
        · omega
        · exact absurd empty held
      rw [setActive_withBlocks]
      refine Program.ensures_bind ((rotate_ensures filed.tick held).mono False.elim
        fun _ _ ended => ended) ?_
      rintro _ _ (⟨nests, error, self, rfl⟩ | ⟨rfl, rfl, outside⟩)
      · have same : world.Nests partition.baseDir := nests
        exact Program.ensures_of_run rfl (.blocked same error self _)
      have tail := ih (filed.tick.rotate held outside) payloads baseOffset (fun _ => .inl rfl)
        (.inr ⟨rfl, nonempty, rounds⟩)
      rw [contents_fresh] at tail
      exact tail.mono (fun overflow => overflow) fun _ _ ended =>
        (ended.after_rotation outside).of_tick.resize
          (rejectedWhole_iff_of_full nonempty nothing admitted)
    | stored stamp taken rest shape progress bounded most admitted =>
      have parted : ¬ RejectedWhole partition.maxSegmentBytes last.bytes.length (taken ++ rest) :=
        not_rejectedWhole_of_stored progress (shape ▸ most) admitted
      have written := filed.tick.extend _ bounded
      have stored : World.SameOutside partition.baseDir world _ :=
        filed.tick.extend_sameOutside (Segment.stamped stamp taken)
      have dropped : payloads.drop taken.length = rest := by rw [shape, List.drop_left]
      have counts : payloads.length = taken.length + rest.length := by
        rw [shape, List.length_append]
      have takes := List.length_pos_iff.mpr progress
      have longer : (contents (front ++ [last.extend (Segment.stamped stamp taken)])).length =
          (contents (front ++ [last])).length + taken.length := by
        rw [contents_extend, List.length_append, Segment.length_stamped]
      have traps : Segment.Overflows partition.maxSegmentBytes
          (contents (front ++ [last.extend (Segment.stamped stamp taken)])).length rest.length →
          Segment.Overflows partition.maxSegmentBytes (contents (front ++ [last])).length
            payloads.length := by
        rw [longer, counts, Segment.Overflows, Segment.Overflows, Nat.add_assoc]
        exact fun overflow => overflow
      rw [setActive_withBlocks]
      simp only [dropped]
      split
      · rename_i exhausted
        have tail := ih written rest (some (baseOffset.getD last.nextOffset))
          (fun _ => last.atEnd_extend _)
            (.inl (by rw [exhausted]; simp only [List.length_nil]; omega))
        rw [next] at tail
        rw [next]
        refine tail.mono traps fun _ _ ended => ?_
        rw [shape]
        exact ended.after_stored stamp taken progress parted stored
      · rename_i more
        have held : (last.extend (Segment.stamped stamp taken)).messages ≠ [] := by
          simp [Tile.extend, Segment.stamped, progress]
        refine Program.ensures_bind ((rotate_ensures written held).mono False.elim
          fun _ _ ended => ended) ?_
        rintro _ _ (⟨nests, error, self, rfl⟩ | ⟨rfl, rfl, outside⟩)
        · exact Program.ensures_of_run rfl (.blocked ((stored.nests_iff _).mp nests) error self _)
        have tail := ih (written.rotate held outside) rest (some (baseOffset.getD last.nextOffset))
          (fun _ => .inl rfl) (.inr ⟨rfl, more, by omega⟩)
        rw [contents_fresh, next] at tail
        rw [next]
        refine tail.mono traps fun _ _ ended => ?_
        rw [shape]
        exact (ended.after_rotation outside).after_stored stamp taken progress parted stored

/-- `Partition::append_batch` ends as its loop does, and the loop does end. -/
theorem appendBatch_ensures
    (filed : Filed world partition.baseDir partition.maxSegmentBytes (front ++ [last]))
    (payloads : List Bytes)
    (atEnd : Segment.Begins partition.maxSegmentBytes last.bytes.length payloads → last.AtEnd) :
    ((partition.withTiles (front ++ [last])).appendBatch payloads).Ensures world
      (Segment.Overflows partition.maxSegmentBytes (contents (front ++ [last])).length
        payloads.length)
      (BatchEnds world partition (front ++ [last]) payloads last.bytes.length none) :=
  appendPayloads_ensures _ filed payloads none atEnd (.inl (Nat.le_refl _))

end Partition

end Ruka
