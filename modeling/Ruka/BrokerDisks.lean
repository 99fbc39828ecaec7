import Ruka.CrashCourses
import Ruka.RegistryRestart

/-! The data directory of a broker on a machine that stops, and what
`TopicRegistry::load` makes of it. Topics are plain names here, so each partition
has a directory of its own two levels down, and work in one of them makes no
difference to the others. -/
namespace Ruka
open BigEndian LexicalPaths FilePrograms FilePrograms.Cached DecimalNames TiledBlocks

/-- Where a broker keeps its partitions, and how. -/
structure Site where
  baseDir : Path
  maxSegmentBytes : Nat
  level : SyncLevel

/-- The key of a partition whose topic is one plain name. -/
abbrev Address := {key : String × UInt32 // Plain key.1.toList}

namespace Site
variable {site : Site} {address other : Address}

def settings (site : Site) (address : Address) : Settings :=
  ⟨address.val.1, address.val.2, site.baseDir, site.maxSegmentBytes⟩

abbrev dir (site : Site) (address : Address) : Path := (site.settings address).dir

def registry (site : Site) : TopicRegistry := .new site.baseDir site.maxSegmentBytes site.level

def load (site : Site) (readDir : Path → List Name) : Program (Except RukaError TopicRegistry) :=
  TopicRegistry.load readDir site.baseDir site.maxSegmentBytes site.level

theorem dir_eq (site : Site) (address : Address) : site.dir address = site.baseDir ++
    [⟨address.val.1.toList, address.property⟩, ⟨decimal address.val.2.toNat, plain_decimal _⟩] :=
  partitionDir_plain site.baseDir address.property address.val.2

theorem base_above (site : Site) (address : Address) : site.baseDir <+: site.dir address := by
  rw [dir_eq]
  exact List.prefix_append _ _

private theorem eq_of_above (above : site.dir address <+: site.dir other) : address = other := by
  rw [dir_eq, dir_eq, List.prefix_append_right_inj] at above
  have shape := above.eq_of_length rfl
  simp only [List.cons.injEq, Subtype.mk.injEq, and_true] at shape
  exact Subtype.ext (Prod.ext (String.toList_inj.mp shape.1)
    (UInt32.toNat_inj.mp (decimal_injective shape.2)))

theorem aside (site : Site) (differ : address ≠ other) :
    Aside (site.dir address) (site.dir other) :=
  ⟨fun above => differ (eq_of_above above), fun above => differ (eq_of_above above).symm⟩

end Site

/-! ## Directories -/

/-- Above the data directory, or in it down to the partitions. -/
def Shallow (baseDir path : Path) : Prop :=
  path <+: baseDir ∨ baseDir <+: path ∧ path.length ≤ baseDir.length + 2

private theorem shallow_topic (baseDir : Path) (topic : Name) :
    Shallow baseDir (baseDir ++ [topic]) :=
  .inr ⟨List.prefix_append _ _, by simp⟩

private theorem shallow_partition (baseDir : Path) (topic entry : Name) :
    Shallow baseDir (baseDir ++ [topic, entry]) :=
  .inr ⟨List.prefix_append _ _, by simp⟩

/-- The files of a partition are further down. -/
theorem Shallow.ne {site : Site} (shallow : Shallow site.baseDir path) (address : Address)
    (name : Name) : path ≠ site.dir address ++ [name] := by
  rintro rfl
  rw [Site.dir_eq] at shallow
  rcases shallow with above | ⟨-, short⟩
  · have length := above.length_le
    simp at length
  · simp at short

/-- Down to the partitions there are no files, and the partitions are named after
their ids. -/
structure Mapped (world : World) (baseDir : Path) : Prop where
  clear : ∀ path, Shallow baseDir path → path ≠ [] → world.file? path = none
  decimals : ∀ topic entry, world.node (baseDir ++ [topic, entry]) ≠ none →
    ∃ id : UInt32, entry.val = decimal id.toNat

namespace Mapped
variable {lossy : Prop} {state after : Cached lossy} {world : World} {baseDir : Path} {site : Site}

private theorem isDirectory (mapped : Mapped world baseDir) (shallow : Shallow baseDir path)
    (below : path ≠ []) (present : world.node path ≠ none) : world.isDirectory path = true := by
  rcases World.node_of_no_file (mapped.clear path shallow below) with absent | directory
  · exact absurd absent present
  · simp [World.isDirectory, directory]

private theorem quiet (mapped : Mapped state.world baseDir) (quiet : state.Quiet after) :
    Mapped after.world baseDir where
  clear path shallow below := (quiet path).file?_eq.trans (mapped.clear path shallow below)
  decimals topic entry present := mapped.decimals topic entry ((quiet _).node ▸ present)

theorem survives (mapped : Mapped state.world baseDir) {disk : World}
    (survives : state.Survives disk) : Mapped disk baseDir where
  clear path shallow below := by
    have absent := mapped.clear path shallow below
    rw [World.file?_congr (survives.other path absent), absent]
  decimals topic entry present := by
    have absent := mapped.clear _ (shallow_partition baseDir topic entry) (by simp)
    rw [survives.other _ absent] at present
    exact mapped.decimals topic entry present

/-- Work on a partition adds its own directory at most. -/
theorem elsewhere {address : Address} (mapped : Mapped state.world site.baseDir)
    (elsewhere : Elsewhere (site.dir address) state after) : Mapped after.world site.baseDir where
  clear path shallow below :=
    elsewhere.noFile (shallow.ne address) (mapped.clear path shallow below)
  decimals topic entry present := by
    by_cases above : site.baseDir ++ [topic, entry] <+: site.dir address
    · rw [Site.dir_eq, List.prefix_append_right_inj] at above
      have shape := above.eq_of_length rfl
      simp only [List.cons.injEq, and_true] at shape
      exact ⟨address.val.2, congrArg Subtype.val shape.2⟩
    · have away : ¬ Near (site.dir address) (site.baseDir ++ [topic, entry]) := by
        rintro (higher | ⟨name, same⟩)
        · exact above higher
        · exact (shallow_partition site.baseDir topic entry).ne address name same
      rw [(elsewhere.far _ away).node] at present
      exact mapped.decimals topic entry present

private theorem putDirectories (mapped : Mapped world baseDir) (above : path <+: baseDir) :
    Mapped (world.putDirectories path) baseDir where
  clear probe shallow below := World.file?_putDirectories (mapped.clear probe shallow below) path
  decimals topic entry present := by
    have notAbove : ¬ baseDir ++ [topic, entry] <+: path := by
      intro inside
      have length := (inside.trans above).length_le
      simp at length
    simp only [World.putDirectories, notAbove, and_false, ↓reduceIte] at present
    exact mapped.decimals topic entry present

end Mapped

/-! ## Work in another directory -/

variable {lossy : Prop} {start state after : Cached lossy} {site : Site} {settings : Settings}
  {ledger fewer : Ledger} {ledgers : Address → Ledger} {dir other : Path}

theorem Vacant.elsewhere (vacant : Vacant state.world other) (elsewhere : Elsewhere dir state after)
    (aside : Aside dir other) : Vacant after.world other where
  empty name := (elsewhere.far _ (aside.not_near name)).node.trans (vacant.empty name)
  clear ancestor below above := by
    refine elsewhere.noFile (fun name same => aside.1 ?_) (vacant.clear ancestor below above)
    rw [same] at above
    exact (List.prefix_append _ _).trans above

theorem Vacant.near {world twin : World} (vacant : Vacant world dir)
    (same : ∀ path, Near dir path → twin.node path = world.node path) : Vacant twin dir where
  empty name := (same _ (.inr ⟨name, rfl⟩)).trans (vacant.empty name)
  clear ancestor below above :=
    (World.file?_congr (same _ (.inl above))).trans (vacant.clear ancestor below above)

namespace Resting

private theorem elsewhere (resting : Resting settings ledger state)
    (elsewhere : Elsewhere dir state after) (aside : Aside dir settings.dir) :
    Resting settings ledger after := by
  rcases resting with ⟨vacant, empty⟩ | ⟨tiles, frayed, log⟩
  · exact .inl ⟨vacant.elsewhere elsewhere aside, empty⟩
  · exact .inr ⟨tiles, frayed.agrees (elsewhere.agrees aside (.inr frayed.directory)), log⟩

private theorem quiet (resting : Resting settings ledger state) (quiet : state.Quiet after) :
    Resting settings ledger after := by
  rcases resting with ⟨vacant, empty⟩ | ⟨tiles, frayed, log⟩
  · exact .inl ⟨vacant.quiet quiet, empty⟩
  · exact .inr ⟨tiles, frayed.quiet quiet, log⟩

/-- In an empty directory there is no partition. -/
theorem vacant (resting : Resting settings ledger state)
    (empty : ∀ name, state.world.node (settings.dir ++ [name]) = none) :
    Vacant state.world settings.dir ∧ ledger.log = [] := by
  rcases resting with vacant | ⟨tiles, frayed, -⟩
  · exact vacant
  · obtain ⟨tile, member⟩ := List.exists_mem_of_ne_nil tiles frayed.tiled.nonempty
    exact absurd (empty _) (file?_ne_none.mp (frayed.legible tile member).log).1

theorem seen (settings : Settings) (ledger : Ledger) (lossy : Prop) :
    SeenNear settings.dir fun disk => Resting settings ledger (settled lossy disk) := by
  rintro world twin same (⟨vacant, empty⟩ | ⟨tiles, frayed, log⟩)
  · exact .inl ⟨Vacant.near vacant same, empty⟩
  · exact .inr ⟨tiles, frayed.agrees (agrees_settled same), log⟩

end Resting

theorem Recoverable.seen (lossy : Prop) (sure : Nat → Prop) (dir : Path) (maxBytes : Nat)
    (log more : List Content) : SeenNear dir (Recoverable lossy sure dir maxBytes log more) := by
  rintro world twin same ⟨tiles, frayed, low, high⟩
  exact ⟨tiles, frayed.agrees (agrees_settled same), low, high⟩

private theorem Rebuilds.of_nodes {world twin : World}
    (same : ∀ name, twin.node (dir ++ [name]) = world.node (dir ++ [name]))
    (rebuilds : Rebuilds world dir offset) : Rebuilds twin dir offset := by
  obtain ⟨baseOffset, log, held, low, high, lost⟩ := rebuilds
  exact ⟨baseOffset, log, (World.file?_congr (same _)).trans held, low, high, lost.of_node (same _)⟩

theorem Enumerates.of_nodes {world twin : World} {listing : List Name}
    (enumerates : Enumerates world dir listing)
    (same : ∀ name, twin.node (dir ++ [name]) = world.node (dir ++ [name])) :
    Enumerates twin dir listing :=
  ⟨enumerates.once, fun name => by rw [enumerates.every, same]⟩

/-! ## Loading the registry -/

/-- A broker that does not run: what its disk holds stands for these ledgers. -/
structure Asleep (site : Site) (ledgers : Address → Ledger) (state : Cached lossy) : Prop where
  mapped : Mapped state.world site.baseDir
  resting : ∀ address, Resting (site.settings address) (ledgers address) state

/-- What a stop can make of the ledgers while indexes are rebuilt. -/
def unsure (site : Site) (ledgers : Address → Ledger) (world : World)
    (address : Address) : Ledger :=
  (ledgers address).stop [] (Rebuilds world (site.dir address))

/-- A registry half loaded: some partitions are open, the others are as they were
at the start. -/
structure Waking (site : Site) (ledgers : Address → Ledger) (start state : Cached lossy)
    (actors : List Partition) : Prop where
  mapped : Mapped state.world site.baseDir
  kept : ∀ path, Shallow site.baseDir path → start.world.node path ≠ none →
    state.world.node path ≠ none
  opened : ∀ partition ∈ actors, ∃ address patches,
    partition = ((site.settings address).frame site.level).withPatches patches ∧
      Running ((ledgers address).reopen lossy (Rebuilds start.world (site.dir address))) state
        (site.dir address) site.maxSegmentBytes patches
  ahead : ∀ address : Address, (∀ partition ∈ actors, partition.key ≠ address.val) →
    Resting (site.settings address) (ledgers address) state ∧
      ∀ name, state.world.node (site.dir address ++ [name]) =
        start.world.node (site.dir address ++ [name])

namespace Waking
variable {actors : List Partition} {readDir : Path → List Name}

private theorem initial (asleep : Asleep site ledgers start) :
    Waking site ledgers start start [] where
  mapped := asleep.mapped
  kept _ _ present := present
  opened _ member := absurd member List.not_mem_nil
  ahead address _ := ⟨asleep.resting address, fun _ => rfl⟩

private theorem quiet (waking : Waking site ledgers start state actors)
    (quiet : state.Quiet after) : Waking site ledgers start after actors where
  mapped := waking.mapped.quiet quiet
  kept path shallow present := (quiet path).node ▸ waking.kept path shallow present
  opened partition member := by
    obtain ⟨address, patches, shape, running⟩ := waking.opened partition member
    exact ⟨address, patches, shape, running.quiet quiet⟩
  ahead address new :=
    have ahead := waking.ahead address new
    ⟨ahead.1.quiet quiet, fun name => (quiet _).node.trans (ahead.2 name)⟩

private theorem resting (waking : Waking site ledgers start state actors) (address : Address) :
    Resting (site.settings address) (unsure site ledgers start.world address) state := by
  by_cases new : ∀ partition ∈ actors, partition.key ≠ address.val
  · exact (waking.ahead address new).1.of_imp (List.append_nil _) fun _ held => held.1
  · obtain ⟨partition, member, keyed⟩ : ∃ partition ∈ actors, partition.key = address.val := by
      simpa using new
    obtain ⟨own, patches, rfl, running⟩ := waking.opened partition member
    obtain rfl : own = address := Subtype.ext keyed
    have here : Resting (site.settings own) _ state := running.resting
    exact here.of_imp (List.append_nil _) fun _ held => ⟨held.1, fun _ => held.2⟩

private theorem safe (waking : Waking site ledgers start state actors) :
    state.Safe fun disk => Asleep site (unsure site ledgers start.world) (settled lossy disk) :=
  fun _ survives =>
    ⟨waking.mapped.survives survives, fun address => (waking.resting address).survives survives⟩

/-- What another partition's work leaves of this. -/
theorem elsewhere {address : Address} {partition : Partition}
    (waking : Waking site ledgers start state actors)
    (new : ∀ partition ∈ actors, partition.key ≠ address.val)
    (elsewhere : Elsewhere (site.dir address) state after)
    (opened : ∃ patches,
      partition = ((site.settings address).frame site.level).withPatches patches ∧
      Running ((ledgers address).reopen lossy (Rebuilds start.world (site.dir address))) after
        (site.dir address) site.maxSegmentBytes patches) :
    Waking site ledgers start after (actors ++ [partition]) where
  mapped := waking.mapped.elsewhere elsewhere
  kept path shallow present := by
    have there := waking.kept path shallow present
    rwa [(elsewhere.left (shallow.ne address) there).node]
  opened other member := by
    rcases List.mem_append.mp member with old | last
    · obtain ⟨own, patches, rfl, running⟩ := waking.opened other old
      have differ : address ≠ own := fun same => new _ old (congrArg Subtype.val same.symm)
      exact ⟨own, patches, rfl, running.agrees
        (elsewhere.agrees (site.aside differ) (.inr running.frayed.directory))⟩
    · rw [List.mem_singleton.mp last]
      exact ⟨address, opened⟩
  ahead other newer := by
    obtain ⟨resting, same⟩ := waking.ahead other fun old member =>
      newer old (List.mem_append_left _ member)
    have differ : address ≠ other := by
      rintro rfl
      obtain ⟨patches, rfl, -⟩ := opened
      exact newer _ (List.mem_append_right _ (List.mem_singleton_self _)) rfl
    refine ⟨resting.elsewhere elsewhere (site.aside differ), fun name => ?_⟩
    exact (elsewhere.far _ ((site.aside differ).not_near name)).node.trans (same name)

/-- One more partition is opened. -/
theorem opens (waking : Waking site ledgers start state actors) (address : Address)
    (new : ∀ partition ∈ actors, partition.key ≠ address.val)
    (enumerates : Enumerates start.world (site.dir address) (readDir (site.dir address))) :
    ((site.settings address).openOrCreate readDir site.level).Completes state
      (fun disk => Asleep site (unsure site ledgers start.world) (settled lossy disk))
      fun reply after => ∃ partition, reply = .ok partition ∧ partition.key = address.val ∧
        Waking site ledgers start after (actors ++ [partition]) := by
  obtain ⟨resting, same⟩ := waking.ahead address new
  have rebuilds : Rebuilds state.world (site.dir address) =
      Rebuilds start.world (site.dir address) :=
    funext fun offset => propext ⟨.of_nodes fun name => (same name).symm, .of_nodes same⟩
  have completes :=
    (site.settings address).completes_openOrCreate readDir site.level resting
      (enumerates.of_nodes same)
  rw [rebuilds] at completes
  refine (completes.framed (Partition.makes_openOrCreate ..)
    fun middle elsewhere own disk survives => ?_).mono ?_
  · refine ⟨(waking.mapped.elsewhere elsewhere).survives survives, fun other => ?_⟩
    by_cases here : address = other
    · subst here
      exact own disk survives
    · exact ((waking.resting other).elsewhere elsewhere (site.aside here)).survives survives
  · rintro reply after - ⟨elsewhere, patches, rfl, running⟩
    exact ⟨_, rfl, rfl, waking.elsewhere new elsewhere ⟨patches, rfl, running⟩⟩

/-- A directory of the start is still one. -/
theorem isDirectory (waking : Waking site ledgers start state actors)
    (shallow : Shallow site.baseDir path) (below : path ≠ [])
    (present : start.world.node path ≠ none) : state.world.isDirectory path = true :=
  waking.mapped.isDirectory shallow below (waking.kept path shallow present)

/-- The inner loop of `TopicRegistry::load` opens every partition of the topic. -/
theorem completes_loadPartitions (waking : Waking site ledgers start state actors)
    (mapped : Mapped start.world site.baseDir) (topic : Name) (listing : List Name)
    (once : listing.Nodup)
    (lists : ∀ dir, start.world.isDirectory dir = true → Enumerates start.world dir (readDir dir))
    (present : ∀ entry ∈ listing, start.world.node (site.baseDir ++ [topic, entry]) ≠ none)
    (new : ∀ entry ∈ listing, ∀ id : UInt32, entry.val = decimal id.toNat →
      ∀ partition ∈ actors, partition.key ≠ (String.ofList topic.val, id))
      (partitions : UInt32 → Option Nat) :
    (site.registry.loadPartitions readDir (site.baseDir ++ [topic]) (String.ofList topic.val)
      listing partitions actors).Completes state (fun disk =>
        Asleep site (unsure site ledgers start.world) (settled lossy disk))
      fun reply after => ∃ loaded more, reply = .ok (loaded, actors ++ more) ∧
        Waking site ledgers start after (actors ++ more) ∧
        (∀ partition ∈ more, partition.topic = String.ofList topic.val) ∧
        ∀ entry ∈ listing, ∀ id : UInt32, entry.val = decimal id.toNat →
          ∃ partition ∈ more, partition.key = (String.ofList topic.val, id) := by
  induction listing generalizing state partitions actors with
  | nil =>
    exact Program.completes_pure waking.safe ⟨partitions, [], by simp, by simpa using waking,
      by simp, by simp⟩
  | cons entry rest ih =>
    obtain ⟨fresh, once⟩ := List.nodup_cons.mp once
    have shallow := shallow_partition site.baseDir topic entry
    have there := present entry List.mem_cons_self
    obtain ⟨id, named⟩ := mapped.decimals topic entry there
    have parsed : parseUint (2 ^ 32) entry.val = some id.toNat := by
      rw [named]
      exact parseUint_decimal id.toNat_lt
    let address : Address :=
      ⟨(String.ofList topic.val, id), by rw [String.toList_ofList]; exact topic.property⟩
    have place : site.dir address = site.baseDir ++ [topic, entry] := by
      rw [Site.dir_eq]
      simp [address, ← named]
    unfold TopicRegistry.loadPartitions
    refine Program.completes_bind
      (completes_isDir _ fun middle quiet => (waking.quiet quiet).safe) ?_
    rintro _ looked - ⟨rfl, quiet⟩
    have still := waking.quiet quiet
    have isDirectory : state.world.isDirectory (site.baseDir ++ [topic] ++ [entry]) = true := by
      rw [List.append_assoc]
      exact waking.isDirectory shallow (by simp) there
    rw [if_pos isDirectory, parsed]
    simp only [UInt32.ofNat_toNat]
    have listed : Enumerates start.world (site.dir address) (readDir (site.dir address)) := by
      apply lists
      rw [place]
      exact mapped.isDirectory shallow (by simp) there
    refine Program.completes_bind
      (still.opens address (new entry List.mem_cons_self id named) listed) ?_
    rintro _ opened - ⟨partition, rfl, keyed, grown⟩
    refine (ih grown once (fun other member => present other (List.mem_cons_of_mem _ member))
      (fun other member otherId otherNamed old held => ?_) _).mono ?_
    · rcases List.mem_append.mp held with before | last
      · exact new other (List.mem_cons_of_mem _ member) otherId otherNamed old before
      · rw [List.mem_singleton.mp last, keyed]
        intro same
        rw [← (Prod.mk.inj same).2, ← named] at otherNamed
        exact fresh (Subtype.ext otherNamed ▸ member)
    · rintro _ after - ⟨loaded, more, rfl, later, topics, found⟩
      refine ⟨loaded, partition :: more, by simp, by simpa using later,
        List.forall_mem_cons.mpr ⟨congrArg Prod.fst keyed, topics⟩,
        fun other member otherId otherNamed => ?_⟩
      rcases List.mem_cons.mp member with rfl | behind
      · rw [named] at otherNamed
        have same : id = otherId := UInt32.toNat_inj.mp (decimal_injective otherNamed)
        exact ⟨partition, List.mem_cons_self, keyed.trans (congrArg (Prod.mk _) same)⟩
      · obtain ⟨held, listed, own⟩ := found other behind otherId otherNamed
        exact ⟨held, List.mem_cons_of_mem _ listed, own⟩

/-- So does the outer loop, for every topic. -/
theorem completes_loadTopics (waking : Waking site ledgers start state actors)
    (mapped : Mapped start.world site.baseDir) (listing : List Name) (once : listing.Nodup)
    (lists : ∀ dir, start.world.isDirectory dir = true → Enumerates start.world dir (readDir dir))
    (present : ∀ topic ∈ listing, start.world.node (site.baseDir ++ [topic]) ≠ none)
    (new : ∀ topic ∈ listing, ∀ partition ∈ actors, partition.topic ≠ String.ofList topic.val)
    (topics : String → Option (UInt32 → Option Nat)) :
    (site.registry.loadTopics readDir listing topics actors).Completes state
      (fun disk => Asleep site (unsure site ledgers start.world) (settled lossy disk))
      fun reply after =>
        ∃ topics more, reply = .ok (site.registry.holding topics (actors ++ more)) ∧
        Waking site ledgers start after (actors ++ more) ∧ ∀ topic ∈ listing, ∀ entry,
        start.world.node (site.baseDir ++ [topic, entry]) ≠ none →
          ∀ id : UInt32, entry.val = decimal id.toNat →
            ∃ partition ∈ more, partition.key = (String.ofList topic.val, id) := by
  induction listing generalizing state topics actors with
  | nil =>
    exact Program.completes_pure waking.safe ⟨topics, [], by simp, by simpa using waking, by simp⟩
  | cons topic rest ih =>
    obtain ⟨fresh, once⟩ := List.nodup_cons.mp once
    have shallow := shallow_topic site.baseDir topic
    have there := present topic List.mem_cons_self
    unfold TopicRegistry.loadTopics
    refine Program.completes_bind
      (completes_isDir _ fun middle quiet => (waking.quiet quiet).safe) ?_
    rintro _ looked - ⟨rfl, quiet⟩
    have isDirectory : state.world.isDirectory (site.registry.baseDir ++ [topic]) = true :=
      waking.isDirectory shallow (by simp) there
    rw [if_pos isDirectory]
    have listed := lists _ (mapped.isDirectory shallow (by simp) there)
    have inside (entry : Name) : entry ∈ readDir (site.baseDir ++ [topic]) ↔
        start.world.node (site.baseDir ++ [topic, entry]) ≠ none := by
      rw [listed.every, List.append_assoc]
      rfl
    refine Program.completes_bind
      ((waking.quiet quiet).completes_loadPartitions mapped topic _ listed.once lists
        (fun entry member => (inside entry).mp member) (fun entry _ id _ partition held same =>
        new topic List.mem_cons_self partition held (congrArg Prod.fst same)) _) ?_
    rintro _ opened - ⟨loaded, here, rfl, grown, own, found⟩
    refine (ih grown once (fun other member => present other (List.mem_cons_of_mem _ member))
      (fun other member partition held same => ?_) _).mono ?_
    · rcases List.mem_append.mp held with before | last
      · exact new other (List.mem_cons_of_mem _ member) partition before same
      · rw [own partition last] at same
        have names : topic = other := Subtype.ext (String.ofList_injective same)
        exact fresh (names ▸ member)
    · rintro _ after - ⟨topics, more, rfl, later, others⟩
      refine ⟨topics, here ++ more, by simp, by simpa using later,
        fun other member entry atEntry id named => ?_⟩
      rcases List.mem_cons.mp member with rfl | behind
      · obtain ⟨partition, held, keyed⟩ := found entry ((inside entry).mpr atEntry) id named
        exact ⟨partition, List.mem_append_left _ held, keyed⟩
      · obtain ⟨partition, held, keyed⟩ := others other behind entry atEntry id named
        exact ⟨partition, List.mem_append_right _ held, keyed⟩

end Waking

/-- Nothing is missing from this registry: the directories of other partitions are empty. -/
def Complete (site : Site) (ledgers : Address → Ledger) (state : Cached lossy)
    (actors : List Partition) : Prop :=
  ∀ address : Address, (∀ partition ∈ actors, partition.key ≠ address.val) →
    Vacant state.world (site.dir address) ∧ (ledgers address).log = []

namespace Waking
variable {actors : List Partition}

private theorem complete (waking : Waking site ledgers start state actors)
    (empty : ∀ address : Address, (∀ partition ∈ actors, partition.key ≠ address.val) →
      ∀ name, start.world.node (site.dir address ++ [name]) = none) :
      Complete site ledgers state actors := by
  intro address new
  obtain ⟨resting, same⟩ := waking.ahead address new
  exact resting.vacant fun name => (same name).trans (empty address new name)

/-- The data directory, or one above it, is made while there are no partitions. -/
theorem putDirectories (waking : Waking site ledgers start state [])
    (empty : ∀ address name, start.world.node (site.dir address ++ [name]) = none)
    (higher : path <+: site.baseDir) (made : after.world = state.world.putDirectories path) :
    Waking site ledgers start after [] := by
  have vacant (address : Address) :=
    waking.complete (fun address _ => empty address) address (by simp)
  have vacated (address : Address) : Vacant after.world (site.dir address) :=
    made ▸ (vacant address).1.putDirectories (higher.trans (site.base_above address))
  refine ⟨made ▸ waking.mapped.putDirectories higher, fun probe shallow there => ?_, by simp,
    fun address _ => ⟨?_, ?_⟩⟩
  · rw [made]
    simp only [World.putDirectories]
    split
    · exact Option.some_ne_none _
    · exact waking.kept probe shallow there
  · exact .inl ⟨vacated address, (vacant address).2⟩
  · exact fun name => ((vacated address).empty name).trans (empty address name).symm

end Waking

namespace Asleep

/-- Without the data directory there are no partitions. -/
theorem empty_of_missing (asleep : Asleep site ledgers state)
    (missing : ¬ state.world.isDirectory site.baseDir = true) (address : Address) (name : Name) :
    state.world.node (site.dir address ++ [name]) = none := by
  rcases asleep.resting address with ⟨vacant, -⟩ | ⟨tiles, frayed, -⟩
  · exact vacant.empty name
  · refine absurd (World.HasDirectory.isDirectory fun path below above => ?_) missing
    exact frayed.directory path below (above.trans (site.base_above address))

/-- A partition with a log has its directories, so it is listed; the others are empty. -/
theorem empty_of_unlisted (asleep : Asleep site ledgers state) (address : Address)
    (unlisted : ∀ topic entry, state.world.node (site.baseDir ++ [topic]) ≠ none →
      state.world.node (site.baseDir ++ [topic, entry]) ≠ none →
      site.baseDir ++ [topic, entry] ≠ site.dir address)
    (name : Name) : state.world.node (site.dir address ++ [name]) = none := by
  rcases asleep.resting address with ⟨vacant, -⟩ | ⟨tiles, frayed, -⟩
  · exact vacant.empty name
  · have directory (path : Path) (below : path ≠ []) (above : path <+: site.dir address) :
        state.world.node path ≠ none := by
      rw [frayed.directory path below above]
      exact Option.some_ne_none _
    rw [Site.dir_eq] at directory unlisted
    refine absurd rfl (unlisted _ _ (directory _ (by simp) ?_)
      (directory _ (by simp) (List.prefix_refl _)))
    rw [List.prefix_append_right_inj]
    exact ⟨_, rfl⟩

end Asleep

/-- However the machine has stopped, the registry can be loaded: every partition
there is gets opened, and a stop inside that leaves what can be loaded. -/
theorem Site.completes_load (asleep : Asleep site ledgers state) (readDir : Path → List Name)
    (lists : ∀ dir, state.world.isDirectory dir = true → Enumerates state.world dir (readDir dir)) :
    (site.load readDir).Completes state
      (fun disk => Asleep site (unsure site ledgers state.world) (settled lossy disk))
      fun reply after => ∃ topics actors, reply = .ok (site.registry.holding topics actors) ∧
        Waking site ledgers state after actors ∧ Complete site ledgers after actors := by
  have waking := Waking.initial asleep
  unfold Site.load TopicRegistry.load
  refine Program.completes_bind (completes_isDir _ fun middle quiet => (waking.quiet quiet).safe) ?_
  rintro _ looked safe ⟨rfl, quiet⟩
  have still := waking.quiet quiet
  by_cases present : state.world.isDirectory site.baseDir = true
  · rw [if_pos present]
    have listed := lists _ present
    refine (still.completes_loadTopics asleep.mapped _ listed.once lists
      (fun topic member => (listed.every topic).mp member) (by simp) _).mono ?_
    rintro _ after - ⟨topics, actors, rfl, later, found⟩
    rw [List.nil_append] at later
    refine ⟨topics, actors, rfl, later,
      later.complete fun address new => asleep.empty_of_unlisted address ?_⟩
    intro topic entry atTopic atEntry same
    rw [Site.dir_eq, List.append_right_inj] at same
    obtain ⟨rfl, rfl⟩ : topic = _ ∧ entry = _ := by simpa using same
    obtain ⟨partition, held, keyed⟩ :=
      found _ ((listed.every _).mpr atTopic) _ atEntry address.val.2 rfl
    refine new partition held ?_
    rw [keyed, String.ofList_toList]
  · rw [if_neg present]
    have empty := asleep.empty_of_missing present
    have clear (ancestor : Path) (below : ancestor ≠ []) (above : ancestor <+: site.baseDir) :
        looked.world.file? ancestor = none := still.mapped.clear ancestor (.inl above) below
    have ran := run_createDirAll clear
    refine Program.completes_bind
      (((weathers_createDirAll_clear clear fun middle above higher made =>
      (still.putDirectories empty higher made).safe).with_run ran).completes ran) ?_
    rintro _ after safe ⟨rfl, made, -⟩
    have based := still.putDirectories empty (List.prefix_refl _) made
    exact Program.completes_pure safe ⟨_, [], rfl, based,
      based.complete fun address _ => empty address⟩

/-- In the registry that was loaded every key has one task. -/
theorem Site.load_owned (mapped : Mapped state.world site.baseDir) (readDir : Path → List Name)
    (lists : ∀ dir, state.world.isDirectory dir = true → Enumerates state.world dir (readDir dir))
    {registry : TopicRegistry}
    (ran : (site.load readDir).cached state = (.ok (.ok registry), after)) : registry.Owned := by
  obtain ⟨same, disk⟩ := Program.cached_run (site.load readDir) state
  rw [ran] at same disk
  have ran : (site.load readDir).run state.world = (.ok (.ok registry), after.world) :=
    Prod.ext same.symm disk.symm
  by_cases present : state.world.isDirectory site.baseDir = true
  · refine TopicRegistry.load_owned ⟨lists _ present, fun topic _ inside => lists _ inside, ?_⟩ ran
    intro topic _ _ entry _ inside number parsed
    have there : state.world.node (site.baseDir ++ [topic, entry]) ≠ none := by
      intro absent
      rw [List.append_assoc] at inside
      simp [World.isDirectory, absent] at inside
    obtain ⟨id, named⟩ := mapped.decimals topic entry there
    rw [named, parseUint_decimal id.toNat_lt] at parsed
    rw [named, Option.some.inj parsed]
  · unfold Site.load TopicRegistry.load at ran
    rw [Program.run_bind_of_run (run_isDir _ _), if_neg present] at ran
    obtain ⟨made, middle, -, ran⟩ := Program.exists_of_run_bind ran
    cases made with
    | error error => cases ran
    | ok _ =>
      cases ran
      exact TopicRegistry.owned_new _ _ _

end Ruka
