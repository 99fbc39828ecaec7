import Ruka.BrokerRuns
import Ruka.PartitionOwnership

/-! Which partitions a restart finds. Writing joins a topic to the data
directory as a path, loading reads topics back as the names of its entries, so
the two agree exactly on topics that are one plain name. -/
namespace Ruka
open LexicalPaths FilePrograms DecimalNames Protocol

/-- The response of a Produce or ProduceBatch request that was successful. -/
def Protocol.Response.Stores : Response → Prop
  | .produce _ => True
  | .produceBatch _ => True
  | _ => False

/-! ## Loading registers plain names only -/

namespace TopicRegistry
variable {world final : World} {readDir : Path → List Name} {self registry : TopicRegistry}
  {topics : String → Option (UInt32 → Option Nat)} {actors : List Partition}

private theorem loadTopics_plain (listing : List Name)
    (plain : ∀ topic, topics topic ≠ none → Plain topic.toList)
    (ran : (self.loadTopics readDir listing topics actors).run world =
      (.ok (.ok registry), final)) :
    ∀ topic, registry.topics topic ≠ none → Plain topic.toList := by
  induction listing generalizing world topics actors with
  | nil =>
    cases ran
    exact plain
  | cons entry rest ih =>
    unfold loadTopics at ran
    rw [Program.run_bind_of_run (run_isDir _ _)] at ran
    split at ran
    · obtain ⟨answer, middle, -, ran⟩ := Program.exists_of_run_bind ran
      cases answer with
      | error error => cases ran
      | ok loaded =>
        refine ih (fun topic held => ?_) ran
        by_cases same : topic = String.ofList entry.val
        · rw [same, String.toList_ofList]
          exact entry.property
        · rw [Function.update_of_ne same] at held
          exact plain topic held
    · exact ih plain ran

/-- Every topic that was loaded is the name of a directory entry. -/
theorem load_plain {baseDir : Path} {maxSegmentBytes : Nat} {syncLevel : SyncLevel} {topic : String}
    {id : UInt32} (ran : (load readDir baseDir maxSegmentBytes syncLevel).run world =
      (.ok (.ok registry), final))
    (found : registry.find topic id ≠ none) : Plain topic.toList := by
  have listed : registry.topics topic ≠ none := by
    intro missing
    simp [find, missing] at found
  unfold load at ran
  rw [Program.run_bind_of_run (run_isDir _ _)] at ran
  split at ran
  · exact loadTopics_plain _ (fun _ held => absurd rfl held) ran topic listed
  · obtain ⟨made, middle, -, ran⟩ := Program.exists_of_run_bind ran
    cases made with
    | error error => cases ran
    | ok _ =>
      cases ran
      exact absurd rfl listed

/-! ## Loading what is there -/

/-- The loop over one topic when every entry is a partition that opens. -/
private theorem run_loadPartitions (topicDir : Path) (topic : String) (listing : List Name)
    (partitions : UInt32 → Option Nat) (actors : List Partition)
    (opens : ∀ entry ∈ listing, world.isDirectory (topicDir ++ [entry]) = true ∧
      ∃ id : UInt32, entry.val = decimal id.toNat ∧
        ∃ partition,
          (self.openPartition readDir topic id).run world = (.ok (.ok partition), world)) :
    ∃ loaded grown, (self.loadPartitions readDir topicDir topic listing partitions
      actors).run world =
        (.ok (.ok (loaded, grown)), world) ∧
      ∀ id, loaded id ≠ none ↔ partitions id ≠ none ∨
      ∃ entry ∈ listing, entry.val = decimal id.toNat := by
  induction listing generalizing partitions actors with
  | nil => exact ⟨partitions, actors, rfl, by simp⟩
  | cons entry rest ih =>
    obtain ⟨present, id, named, partition, opened⟩ := opens entry (by simp)
    have parsed : parseUint (2 ^ 32) entry.val = some id.toNat := by
      rw [named]
      exact parseUint_decimal id.toNat_lt
    obtain ⟨loaded, grown, ran, keys⟩ := ih (Function.update partitions id (some actors.length))
      (actors ++ [partition]) fun other member => opens other (List.mem_cons_of_mem _ member)
    refine ⟨loaded, grown, ?_, fun other => ?_⟩
    · unfold loadPartitions
      rw [Program.run_bind_of_run (run_isDir _ _), if_pos present, parsed]
      simp only [UInt32.ofNat_toNat]
      rw [Program.run_bind_of_run opened]
      exact ran
    · rw [keys, List.exists_mem_cons_iff]
      by_cases same : other = id
      · subst same
        simp [named]
      · have differ : entry.val ≠ decimal other.toNat := by
          rw [named]
          intro equal
          exact same (UInt32.toNat_inj.mp (decimal_injective equal).symm)
        rw [Function.update_of_ne same]
        simp [differ]

/-- The loop over the data directory when every entry is a topic of such partitions. -/
private theorem run_loadTopics (world : World) (readDir : Path → List Name) (self : TopicRegistry)
    (listing : List Name) (once : listing.Nodup)
    (topics : String → Option (UInt32 → Option Nat)) (actors : List Partition)
    (unused : ∀ entry ∈ listing, topics (String.ofList entry.val) = none)
    (opens : ∀ topic ∈ listing, world.isDirectory (self.baseDir ++ [topic]) = true ∧
      ∀ entry ∈ readDir (self.baseDir ++ [topic]),
        world.isDirectory (self.baseDir ++ [topic] ++ [entry]) = true ∧
          ∃ id : UInt32, entry.val = decimal id.toNat ∧ ∃ partition,
            (self.openPartition readDir (String.ofList topic.val) id).run world =
              (.ok (.ok partition), world)) :
    ∃ registry, (self.loadTopics readDir listing topics actors).run world =
      (.ok (.ok registry), world) ∧ ∀ topic id, registry.find topic id ≠ none ↔
      (topics topic).bind (· id) ≠ none ∨
        ∃ name ∈ listing, String.ofList name.val = topic ∧
          ∃ entry ∈ readDir (self.baseDir ++ [name]), entry.val = decimal id.toNat := by
  induction listing generalizing topics actors with
  | nil => exact ⟨_, rfl, by simp [find, holding]⟩
  | cons name rest ih =>
    obtain ⟨fresh, once⟩ := List.nodup_cons.mp once
    obtain ⟨present, inner⟩ := opens name (by simp)
    obtain ⟨loaded, grown, first, keys⟩ :=
      run_loadPartitions (self.baseDir ++ [name]) (String.ofList name.val)
        (readDir (self.baseDir ++ [name])) (fun _ => none) actors inner
    have free := unused name (by simp)
    obtain ⟨registry, ran, found⟩ :=
      ih once (Function.update topics (String.ofList name.val) (some loaded)) grown
        (fun other member => by
        rw [Function.update_of_ne]
        · exact unused other (List.mem_cons_of_mem _ member)
        · intro same
          have names : other = name := Subtype.ext (String.ofList_injective same)
          exact fresh (names ▸ member))
      fun other member => opens other (List.mem_cons_of_mem _ member)
    refine ⟨registry, ?_, fun topic id => ?_⟩
    · unfold loadTopics
      rw [Program.run_bind_of_run (run_isDir _ _), if_pos present, Program.run_bind_of_run first]
      exact ran
    · rw [found, List.exists_mem_cons_iff]
      by_cases same : String.ofList name.val = topic
      · subst same
        have here := keys id
        simp only [ne_eq, not_true_eq_false, false_or] at here
        simp only [Function.update_self, Option.bind_some, ne_eq, here, free, Option.bind_none,
          not_true_eq_false, true_and, false_or]
      · rw [Function.update_of_ne (Ne.symm same)]
        simp [same]

end TopicRegistry

/-! ## What a run registers -/

def TopicRegistry.Registers (self : TopicRegistry) (key : String × UInt32) : Prop :=
  self.find key.1 key.2 ≠ none

namespace Broker
variable {world after : World} {broker changed : Broker} {request : Protocol.Request}
  {response : Response} {readDir : Path → List Name}

/-- A lookup keeps every key, and registers its own when it finds a task. -/
theorem find_of_lookup {registry found : TopicRegistry}
    (ran : (lookup readDir registry request).run world = (.ok (answer, found), after)) :
    (∀ topic id sender, registry.find topic id = some sender → found.find topic id = some sender) ∧
      ∀ sender, answer = .ok sender → found.find request.key.1 request.key.2 = some sender := by
  rcases cases_of_lookup ran with ⟨rfl, answers⟩ | creates
  · exact ⟨fun _ _ _ same => same, answers⟩
  · refine ⟨fun _ _ _ => creates.keeps, fun sender same => ?_⟩
    subst same
    exact creates.answers

private theorem find_of_ask
    (ran : (broker.ask sender command).run world = (.ok (reply, changed), after)) :
    changed.registry.find = broker.registry.find := by
  rcases cases_of_ask ran with rfl | rfl | ⟨partition, rfl⟩ <;> rfl

/-- A request keeps every key, and a stored one has its own registered. -/
theorem registers_of_handleRequest
    (ran : (broker.handleRequest readDir request).run world = (.ok (response, changed), after)) :
    (∀ key, broker.registry.Registers key → changed.registry.Registers key) ∧
      (response.Stores → changed.registry.Registers request.key) := by
  have keeps {registry found : TopicRegistry}
      (same : ∀ topic id sender, registry.find topic id = some sender →
        found.find topic id = some sender)
      (key : String × UInt32) (held : registry.Registers key) : found.Registers key := by
    obtain ⟨sender, there⟩ := Option.ne_none_iff_exists'.mp held
    exact Option.ne_none_iff_exists'.mpr ⟨sender, same _ _ _ there⟩
  rcases exists_of_handleRequest ran with
    ⟨error, registry, looked, rfl, rfl⟩ | ⟨sender, registry, middle, reply, looked, asked, -⟩
  · exact ⟨keeps (find_of_lookup looked).1, False.elim⟩
  · obtain ⟨kept, answered⟩ := find_of_lookup looked
    have same : changed.registry.find = registry.find := find_of_ask asked
    refine ⟨fun key held => ?_, fun _ => ?_⟩
    · have there := keeps kept key held
      rwa [TopicRegistry.Registers, same]
    · rw [TopicRegistry.Registers, same, answered sender rfl]
      exact Option.some_ne_none _

end Broker

private theorem BrokerRun.registers {start world : World} {first : TopicRegistry} {broker : Broker}
    {history : List (Protocol.Request × Response)}
    (run : BrokerRun start first world broker history) (stored : ∀ call ∈ history, call.2.Stores) :
    ∀ call ∈ history, broker.registry.Registers call.1.key := by
  induction run with
  | started => exact nofun
  | handled run readDir decoded ran ih =>
    intro call member
    have registers := Broker.registers_of_handleRequest ran
    rcases List.mem_append.mp member with old | new
    · exact registers.1 _ (ih (fun other listed =>
        stored other (List.mem_append_left _ listed)) call old)
    · rw [List.mem_singleton] at new
      have success := stored call member
      rw [new] at success ⊢
      exact registers.2 success

/-! ## What a run leaves in the data directory -/

/-- Below the data directory there are only the directories of registered
partitions and the files in them. -/
structure Charted (world : World) (registry : TopicRegistry) : Prop where
  base : world.HasDirectory registry.baseDir
  directories : ∀ path, StrictlyInside registry.baseDir path → world.node path = some .directory →
    ∃ key, registry.Registers key ∧ path <+: partitionDir registry.baseDir key.1 key.2
  files : ∀ path data, StrictlyInside registry.baseDir path → world.node path = some (.file data) →
    ∃ key, registry.Registers key ∧
    ∃ name, path = partitionDir registry.baseDir key.1 key.2 ++ [name]

namespace Charted
variable {world after : World} {registry : TopicRegistry} {partition : Partition}
  {topic : String} {id : UInt32}

private theorem serve (charted : Charted world registry)
    (registered : registry.Registers partition.key)
    (outside : World.SameOutside (partitionDir registry.baseDir partition.topic partition.id) world
      after) : Charted after (registry.replace sender result) where
  base := charted.base.of_sameOutside outside
  directories := fun path inside present =>
    charted.directories path inside (outside.of_directory present)
  files := by
    intro path data inside present
    by_cases same : after.node path = world.node path
    · exact charted.files path data inside (same ▸ present)
    · obtain ⟨⟨name, shape⟩, -⟩ := outside path same
      exact ⟨partition.key, registered, name, shape⟩

private theorem register (charted : Charted world registry)
    (fresh : Partition.Fresh world after topic id registry.baseDir registry.maxSegmentBytes
      registry.syncLevel partition) :
    Charted after ((registry.enterTopic topic).register topic id partition) := by
  have here : ((registry.enterTopic topic).register topic id partition).Registers (topic, id) := by
    rw [TopicRegistry.Registers, TopicRegistry.find_register, if_pos rfl]
    exact Option.some_ne_none _
  have old (key : String × UInt32) (registered : registry.Registers key) :
      ((registry.enterTopic topic).register topic id partition).Registers key := by
    rw [TopicRegistry.Registers, TopicRegistry.find_register, TopicRegistry.find_enterTopic]
    split
    · exact Option.some_ne_none _
    · exact registered
  refine ⟨fresh.hasDirectory charted.base, fun path inside present => ?_,
    fun path data inside present => ?_⟩
  · have made := fresh.outside.of_directory present
    unfold World.putDirectories at made
    simp only at made
    split at made
    · rename_i above
      exact ⟨(topic, id), here, above.2⟩
    · obtain ⟨key, registered, above⟩ := charted.directories path inside made
      exact ⟨key, old key registered, above⟩
  · by_cases same :
      after.node path = (world.putDirectories (partitionDir registry.baseDir topic id)).node path
    · rw [same] at present
      unfold World.putDirectories at present
      simp only at present
      split at present
      · cases present
      · obtain ⟨key, registered, name, shape⟩ := charted.files path data inside present
        exact ⟨key, old key registered, name, shape⟩
    · obtain ⟨⟨name, shape⟩, -⟩ := fresh.outside path same
      exact ⟨(topic, id), here, name, shape⟩

/-- A stored request keeps the chart. -/
theorem handled {keys : String × UInt32 → Prop} {broker changed : Broker}
    {request : Protocol.Request} {response : Response} {readDir : Path → List Name}
    (charted : Charted world broker.registry) (housed : Housed keys world broker.registry)
    (apart : Apart keys broker.registry.baseDir) (known : keys request.key)
    (alive : broker.dead = [])
    (ran : (broker.handleRequest readDir request).run world = (.ok (response, changed), after))
    (stores : response.Stores) : Charted after changed.registry ∧ changed.dead = [] := by
  rcases Broker.exists_of_handleRequest ran with
    ⟨error, registry, looked, rfl, rfl⟩ | ⟨sender, registry, middle, reply, looked, asked, rfl⟩
  · exact stores.elim
  · have found := (housed.lookup_ensures known readDir).of_run looked
    have house := found.housed housed apart known
    have chart : Charted middle registry := by
      cases found with
      | present found => exact charted
      | created missing creates fresh => exact charted.register fresh
    obtain ⟨partition, tiles, held, keyed, -, asks⟩ :=
      house.ask_ensures found.find broker.dead (by simp [alive]) request.command
    have replied := asks.of_run asked
    cases replied with
    | lost overflow => exact stores.elim
    | failed error => exact stores.elim
    | answered same lives outside explained =>
      refine ⟨chart.serve ?_ outside, alive⟩
      rw [TopicRegistry.Registers, keyed, found.find]
      exact Option.some_ne_none _

end Charted

/-- A run of stored requests from an empty data directory. -/
theorem BrokerRun.charted {keys : String × UInt32 → Prop} {start world : World}
    {first : TopicRegistry} {broker : Broker} {history : List (Protocol.Request × Response)}
    (run : BrokerRun start first world broker history) (housed : Housed keys start first)
    (charted : Charted start first) (apart : Apart keys first.baseDir)
    (known : ∀ call ∈ history, keys call.1.key) (stored : ∀ call ∈ history, call.2.Stores) :
    Housed keys world broker.registry ∧ Charted world broker.registry ∧ broker.dead = [] := by
  induction run with
  | started => exact ⟨housed, charted, rfl⟩
  | handled run readDir decoded ran ih =>
    obtain ⟨house, chart, alive⟩ :=
      ih (fun call member => known call (List.mem_append_left _ member)) fun call member =>
        stored call (List.mem_append_left _ member)
    have asked := known _ (List.mem_append_right _ (List.mem_singleton.mpr rfl))
    have stores := stored _ (List.mem_append_right _ (List.mem_singleton.mpr rfl))
    have near := run.baseDir ▸ apart
    obtain ⟨later, living⟩ := chart.handled house near asked alive ran stores
    refine ⟨house.handled near asked decoded.small_command ran living ?_, later, living⟩
    intro error failed
    rw [failed] at stores
    exact stores

/-! ## Plain topics -/

/-- The directory of a plain topic's partition is two levels down. -/
theorem partitionDir_plain (baseDir : Path) {topic : String} (plain : Plain topic.toList)
    (id : UInt32) : partitionDir baseDir topic id =
      baseDir ++ [⟨topic.toList, plain⟩, ⟨decimal id.toNat, plain_decimal id.toNat⟩] := by
  rw [partitionDir_eq, join_plain baseDir plain, List.append_assoc]
  rfl

private theorem apart_of_plain {keys : String × UInt32 → Prop} (baseDir : Path)
    (plain : ∀ key, keys key → Plain key.1.toList) : Apart keys baseDir := by
  intro topic id other otherId known otherKnown same
  obtain ⟨joined, rfl⟩ := partitionDir_inj.mp same
  rw [join_plain baseDir (plain _ known), join_plain baseDir (plain _ otherKnown)] at joined
  have names := List.append_cancel_left joined
  simp only [List.cons.injEq, and_true, Subtype.mk.injEq] at names
  rw [String.toList_inj.mp names]

theorem strictlyInside_append (baseDir : Path) (name : Name) (rest : Path) :
    StrictlyInside baseDir (baseDir ++ name :: rest) :=
  ⟨List.prefix_append _ _, by simp⟩

namespace Charted
variable {world : World} {registry : TopicRegistry} {name entry : Name}
  {topic : String} {id : UInt32}

/-- An entry of the data directory is a registered topic. -/
theorem topic_of_entry (charted : Charted world registry)
    (plain : ∀ key, registry.Registers key → Plain key.1.toList)
    (present : world.node (registry.baseDir ++ [name]) ≠ none) :
    world.node (registry.baseDir ++ [name]) = some .directory := by
  obtain ⟨node, held⟩ := Option.ne_none_iff_exists'.mp present
  cases node with
  | directory => exact held
  | file data =>
    obtain ⟨key, registered, file, shape⟩ := charted.files _ data (strictlyInside_append _ _ _) held
    rw [partitionDir_plain _ (plain key registered)] at shape
    have length := congrArg List.length shape
    simp at length

/-- An entry of a topic's directory is a registered partition of that topic. -/
theorem partition_of_entry (charted : Charted world registry)
    (plain : ∀ key, registry.Registers key → Plain key.1.toList)
    (present : world.node (registry.baseDir ++ [name, entry]) ≠ none) :
    world.node (registry.baseDir ++ [name, entry]) = some .directory ∧
      ∃ id : UInt32, registry.Registers (String.ofList name.val, id) ∧
      entry.val = decimal id.toNat := by
  obtain ⟨node, held⟩ := Option.ne_none_iff_exists'.mp present
  cases node with
  | directory =>
    obtain ⟨⟨topic, id⟩, registered, above⟩ :=
      charted.directories _ (strictlyInside_append _ _ _) held
    rw [partitionDir_plain _ (plain _ registered), List.prefix_append_right_inj] at above
    have shape := above.eq_of_length rfl
    simp only [List.cons.injEq, and_true] at shape
    obtain ⟨rfl, rfl⟩ := shape
    refine ⟨held, id, ?_, rfl⟩
    rwa [String.ofList_toList]
  | file data =>
    obtain ⟨key, registered, file, shape⟩ := charted.files _ data (strictlyInside_append _ _ _) held
    rw [partitionDir_plain _ (plain key registered)] at shape
    have length := congrArg List.length shape
    simp at length

/-- With plain topics no partition lies inside another. -/
theorem sole (charted : Charted world registry)
    (plain : ∀ key, registry.Registers key → Plain key.1.toList)
    (registered : registry.Registers (topic, id)) :
    ¬ world.Nests (partitionDir registry.baseDir topic id) := by
  rintro ⟨name, present⟩
  rw [partitionDir_plain _ (plain _ registered), List.append_assoc] at present
  obtain ⟨key, other, above⟩ := charted.directories _ (strictlyInside_append _ _ _) present
  rw [partitionDir_plain _ (plain key other)] at above
  have length := above.length_le
  simp at length

end Charted

/-- A registered partition of a plain topic opens as its task left it. -/
private theorem run_openPartition_registered {keys : String × UInt32 → Prop} {world : World}
    {registry : TopicRegistry} {readDir : Path → List Name} {topic : String} {id : UInt32}
    (housed : Housed keys world registry) (charted : Charted world registry)
    (plain : ∀ key, registry.Registers key → Plain key.1.toList)
    (enumerates : ∀ dir, world.isDirectory dir = true → Enumerates world dir (readDir dir))
    (registered : registry.Registers (topic, id)) (level : SyncLevel) :
    world.HasDirectory (partitionDir registry.baseDir topic id) ∧
      ∃ partition, ((TopicRegistry.new registry.baseDir registry.maxSegmentBytes
        level).openPartition readDir topic id).run world = (.ok (.ok partition), world) := by
  obtain ⟨sender, found⟩ := Option.ne_none_iff_exists'.mp registered
  obtain ⟨partition, held, keyed⟩ := housed.owned.getElem? found
  obtain ⟨tiles, lives⟩ := housed.lives partition (List.mem_of_getElem? held)
  obtain ⟨rfl, rfl⟩ := Prod.mk.inj keyed
  have layout : Layout world (partitionDir registry.baseDir partition.topic partition.id)
      registry.maxSegmentBytes tiles := ⟨lives.filed, charted.sole plain registered⟩
  exact ⟨layout.directory, _, Partition.run_openOrCreate_existing readDir _ _ _ _ level layout
    lives.small (enumerates _ layout.directory.isDirectory)⟩

/-- With plain topics a restart finds every partition and nothing else. -/
private theorem load_registers {keys : String × UInt32 → Prop} {world : World}
    {registry : TopicRegistry} {readDir : Path → List Name} (housed : Housed keys world registry)
    (charted : Charted world registry) (plain : ∀ key, registry.Registers key → Plain key.1.toList)
    (enumerates : ∀ dir, world.isDirectory dir = true → Enumerates world dir (readDir dir))
    (level : SyncLevel) :
    ∃ loaded, (TopicRegistry.load readDir registry.baseDir registry.maxSegmentBytes
      level).run world =
        (.ok (.ok loaded), world) ∧ ∀ key, loaded.Registers key ↔ registry.Registers key := by
  have listing := enumerates _ charted.base.isDirectory
  have directory {path : Path} (present : world.node path = some .directory) :
      world.isDirectory path = true := by
    simp [World.isDirectory, present]
  have inner (name : Name) (member : name ∈ readDir registry.baseDir) :
      Enumerates world (registry.baseDir ++ [name]) (readDir (registry.baseDir ++ [name])) :=
    enumerates _ (directory (charted.topic_of_entry plain ((listing.every name).mp member)))
  have below (name entry : Name) (member : name ∈ readDir registry.baseDir)
      (listed : entry ∈ readDir (registry.baseDir ++ [name])) :
      world.node (registry.baseDir ++ [name, entry]) ≠ none := by
    have present := ((inner name member).every entry).mp listed
    rwa [List.append_assoc] at present
  obtain ⟨loaded, ran, found⟩ := TopicRegistry.run_loadTopics world readDir
    (.new registry.baseDir registry.maxSegmentBytes level) (readDir registry.baseDir) listing.once
      (fun _ => none) []
    (fun _ _ => rfl) (by
      intro name member
      refine ⟨directory (charted.topic_of_entry plain ((listing.every name).mp member)),
        fun entry listed => ?_⟩
      obtain ⟨present, id, registered, named⟩ :=
        charted.partition_of_entry plain (below name entry member listed)
      refine ⟨?_, id, named, (run_openPartition_registered housed charted plain enumerates
        registered level).2⟩
      apply directory
      rwa [List.append_assoc])
  refine ⟨loaded, ?_, fun key => (found key.1 key.2).trans ?_⟩
  · unfold TopicRegistry.load
    rw [Program.run_bind_of_run (run_isDir _ _), if_pos charted.base.isDirectory]
    exact ran
  · constructor
    · rintro (nothing | ⟨name, member, topic, entry, listed, named⟩)
      · exact absurd rfl nothing
      · obtain ⟨-, id, registered, decimalName⟩ :=
          charted.partition_of_entry plain (below name entry member listed)
        have same : id = key.2 :=
          UInt32.toNat_inj.mp (decimal_injective (decimalName.symm.trans named))
        rwa [topic, same] at registered
    · intro registered
      obtain ⟨present, -⟩ :=
        run_openPartition_registered housed charted plain enumerates registered level
      rw [partitionDir_plain _ (plain key registered)] at present
      let name : Name := ⟨key.1.toList, plain key registered⟩
      let entry : Name := ⟨decimal key.2.toNat, plain_decimal _⟩
      have member : name ∈ readDir registry.baseDir := by
        refine (listing.every name).mpr ?_
        rw [present (registry.baseDir ++ [name]) (by simp) ⟨[entry], by simp [name, entry]⟩]
        exact Option.some_ne_none _
      refine .inr ⟨name, member, String.ofList_toList, entry, ?_, rfl⟩
      refine ((inner name member).every entry).mpr ?_
      rw [List.append_assoc]
      change world.node (registry.baseDir ++ [name, entry]) ≠ none
      rw [present (registry.baseDir ++ [name, entry]) (by simp) (List.prefix_refl _)]
      exact Option.some_ne_none _

/-- After any run of stored messages from an empty data directory, loading the
directory registers exactly the partitions that were registered, if and only if
every topic among them is a single plain name. -/
theorem restart_registers_same_iff {start world : World} {baseDir : Path} {maxSegmentBytes : Nat}
    {syncLevel : SyncLevel} {broker : Broker} {history : List (Protocol.Request × Response)}
    {readDir : Path → List Name} (present : start.HasDirectory baseDir)
    (empty : ∀ path, StrictlyInside baseDir path → start.node path = none)
    (run : BrokerRun start (.new baseDir maxSegmentBytes syncLevel) world broker history)
    (stored : ∀ call ∈ history, call.2.Stores)
    (enumerates : ∀ dir, world.isDirectory dir = true → Enumerates world dir (readDir dir))
    (level : SyncLevel) :
    (∃ loaded after,
      (TopicRegistry.load readDir baseDir maxSegmentBytes level).run world =
        (.ok (.ok loaded), after) ∧
      ∀ key, loaded.Registers key ↔ broker.registry.Registers key) ↔
      ∀ key, broker.registry.Registers key → Plain key.1.toList := by
  constructor
  · rintro ⟨loaded, after, ran, same⟩ key registered
    exact TopicRegistry.load_plain ran ((same key).mpr registered)
  · intro plain
    have apart := apart_of_plain baseDir plain
    have unwritten : Unwritten broker.registry.Registers start baseDir := by
      intro topic id registered name
      rw [partitionDir_plain _ (plain _ registered), List.append_assoc]
      simp only [World.file?, List.cons_append, empty _ (strictlyInside_append _ _ _)]
    have charted : Charted start (.new baseDir maxSegmentBytes syncLevel) := by
      refine ⟨present, fun path inside held => ?_, fun path data inside held => ?_⟩
      · have nothing : start.node path = none := empty path inside
        rw [nothing] at held
        cases held
      · have nothing : start.node path = none := empty path inside
        rw [nothing] at held
        cases held
    obtain ⟨house, chart, -⟩ :=
      run.charted (.new baseDir maxSegmentBytes syncLevel unwritten) charted apart
        (run.registers stored) stored
    obtain ⟨loaded, ran, same⟩ := load_registers house chart plain enumerates level
    have site := run.site
    simp only [TopicRegistry.site, TopicRegistry.new, Prod.mk.injEq] at site
    rw [site.1, site.2.1] at ran
    exact ⟨loaded, world, ran, same⟩

/-- One stored message on a blank disk. -/
private theorem exists_stored (request : ProduceRequest)
    (decoded : Protocol.Request.Decoded (.produce request))
    (fits : recordLen none (some request.payload) ≤ 100) :
    ∃ world broker history partition tiles,
      BrokerRun blankWorld (.new [] 100 .none) world broker history ∧
        history.map Prod.fst = [.produce request] ∧ (∀ call ∈ history, call.2.Stores) ∧
        broker.registry.find request.topic request.partition = some 0 ∧
        broker.registry.actors[0]? = some partition ∧ Lives world [] 100 .none partition tiles := by
  obtain ⟨world, broker, partition, tiles, stamp, ran, -, found, there, lives, -⟩ :=
    run_first_produce [] 100 .none request (by decide) fits (by omega)
  have run := BrokerRun.handled .started (fun _ => []) decoded ran
  have site := run.site
  simp only [TopicRegistry.site, TopicRegistry.new, Prod.mk.injEq] at site
  rw [site.1, site.2.1, site.2.2] at lives
  refine ⟨world, broker, _, partition, tiles, run, rfl, fun call member => ?_, found, there, lives⟩
  rw [List.nil_append, List.mem_singleton] at member
  rw [member]
  trivial

/-- A message stored under the topic `a/b` is in a directory that loading takes
for a partition of `a`, and its number does not parse. -/
theorem nested_topic_not_restored : ∃ world broker history,
    BrokerRun blankWorld (.new [] 100 .none) world broker history ∧
      history.map Prod.fst = [.produce ⟨1, "a/b", 0, [7]⟩] ∧ (∀ call ∈ history, call.2.Stores) ∧
      broker.registry.Registers ("a/b", 0) ∧
      ∀ readDir loaded after,
        (TopicRegistry.load readDir [] 100 .none).run world = (.ok (.ok loaded), after) →
        ¬ loaded.Registers ("a/b", 0) := by
  let frame := Protocol.Request.intoFrame (.produce ⟨1, "a/b", 0, [7]⟩)
  have decoded : Protocol.Request.Decoded (.produce ⟨1, "a/b", 0, [7]⟩) :=
    ⟨frame.encode, frame, [], by decide +kernel, by decide +kernel⟩
  obtain ⟨world, broker, history, -, -, run, asked, stored, found, -⟩ :=
    exists_stored _ decoded (by decide)
  refine ⟨world, broker, history, run, asked, stored, ?_,
    fun readDir loaded after ran registered => ?_⟩
  · exact fun missing => Option.some_ne_none _ (found.symm.trans missing)
  · have plain := TopicRegistry.load_plain ran registered
    exact absurd plain (by decide)

/-- How the disk of a single plain partition can be listed. -/
private theorem exists_enumeration {world : World} {registry : TopicRegistry} {topic : String}
    {id : UInt32} (housed : Housed (· = (topic, id)) world registry)
    (charted : Charted world registry) (root : registry.baseDir = []) (plain : Plain topic.toList)
    (registered : registry.Registers (topic, id)) :
    ∃ readDir : Path → List Name, ∀ dir,
      world.isDirectory dir = true → Enumerates world dir (readDir dir) := by
  let name : Name := ⟨topic.toList, plain⟩
  let entry : Name := ⟨decimal id.toNat, plain_decimal id.toNat⟩
  have only (key : String × UInt32) (held : registry.Registers key) : key = (topic, id) := by
    obtain ⟨sender, found⟩ := Option.ne_none_iff_exists'.mp held
    obtain ⟨partition, there, keyed⟩ := housed.owned.getElem? found
    exact keyed.symm.trans (housed.known partition (List.mem_of_getElem? there))
  have allPlain (key : String × UInt32) (held : registry.Registers key) : Plain key.1.toList := by
    rw [only key held]
    exact plain
  obtain ⟨sender, found⟩ := Option.ne_none_iff_exists'.mp registered
  obtain ⟨partition, there, keyed⟩ := housed.owned.getElem? found
  obtain ⟨tiles, lives⟩ := housed.lives partition (List.mem_of_getElem? there)
  have location : partitionDir registry.baseDir partition.topic partition.id = [name, entry] := by
    obtain ⟨rfl, rfl⟩ := Prod.mk.inj keyed
    rw [partitionDir_plain _ plain, root]
    rfl
  have layout : Layout world [name, entry] registry.maxSegmentBytes tiles := by
    rw [← location]
    refine ⟨lives.filed, charted.sole allPlain ?_⟩
    rw [show (partition.topic, partition.id) = (topic, id) from keyed]
    exact registered
  have inside (path : Path) (present : world.node path = some .directory) (below : path ≠ []) :
      path = [name] ∨ path = [name, entry] := by
    obtain ⟨key, held, above⟩ := charted.directories path (root ▸ ⟨List.nil_prefix, below⟩) present
    rw [only key held, partitionDir_plain _ plain, root] at above
    obtain ⟨rest, shape⟩ := above
    match path, shape with
    | [], _ => exact absurd rfl below
    | [first], shape => exact .inl (by simpa [name] using (List.cons.inj shape).1)
    | first :: second :: more, shape =>
      have parts := List.cons.inj shape
      have tail := List.cons.inj parts.2
      have nothing := List.append_eq_nil_iff.mp tail.2
      exact .inr (by rw [parts.1, tail.1, nothing.1])
  have topics : Enumerates world [] [name] := by
    refine ⟨List.nodup_singleton _, fun other => ⟨fun member => ?_, fun held => ?_⟩⟩
    · rw [List.mem_singleton.mp member, List.nil_append,
        layout.directory [name] (by simp) ⟨[entry], rfl⟩]
      exact Option.some_ne_none _
    · have there : world.node (registry.baseDir ++ [other]) ≠ none := by rwa [root]
      have present := charted.topic_of_entry allPlain there
      rw [root] at present
      rcases inside _ present (by simp) with same | same
      · simpa using same
      · simp at same
  have partitions : Enumerates world [name] [entry] := by
    refine ⟨List.nodup_singleton _, fun other => ⟨fun member => ?_, fun held => ?_⟩⟩
    · rw [List.mem_singleton.mp member]
      change world.node [name, entry] ≠ none
      rw [layout.directory [name, entry] (by simp) (List.prefix_refl _)]
      exact Option.some_ne_none _
    · have there : world.node (registry.baseDir ++ [name, other]) ≠ none := by rwa [root]
      have present := (charted.partition_of_entry allPlain there).1
      rw [root] at present
      rcases inside _ present (by simp) with same | same
      · simp at same
      · simpa using same
  refine ⟨fun dir => if dir = [] then [name] else if dir = [name] then [entry] else
    tiles.flatMap fun tile => [logName tile.baseOffset, indexName tile.baseOffset],
      fun dir present => ?_⟩
  by_cases top : dir = []
  · simpa [top] using topics
  · have node : world.node dir = some .directory := by simpa [World.isDirectory, top] using present
    rcases inside dir node top with rfl | rfl
    · simpa using partitions
    · simpa using layout.enumerates

/-- A message stored under the topic `t`, and the restart that finds it. -/
theorem restart_registers_same_iff_one_topic : ∃ world broker history readDir,
    BrokerRun blankWorld (.new [] 100 .none) world broker history ∧
      history.map Prod.fst = [.produce ⟨1, "t", 0, [7]⟩] ∧ broker.registry.Registers ("t", 0) ∧
      ∃ loaded after,
        (TopicRegistry.load readDir [] 100 .none).run world = (.ok (.ok loaded), after) ∧
        ∀ key, loaded.Registers key ↔ broker.registry.Registers key := by
  let frame := Protocol.Request.intoFrame (.produce ⟨1, "t", 0, [7]⟩)
  have decoded : Protocol.Request.Decoded (.produce ⟨1, "t", 0, [7]⟩) :=
    ⟨frame.encode, frame, [], by decide +kernel, by decide +kernel⟩
  obtain ⟨world, broker, history, partition, tiles, run, asked, stored, found, there, lives⟩ :=
    exists_stored _ decoded (by decide)
  have registered : broker.registry.Registers ("t", 0) :=
    fun missing => Option.some_ne_none _ (found.symm.trans missing)
  have apart : Apart (· = ("t", 0)) [] := fun _ _ _ _ first second _ => first.trans second.symm
  have unwritten : Unwritten (· = ("t", 0)) blankWorld [] := fun _ _ _ _ => rfl
  have blank : Charted blankWorld (.new [] 100 .none) :=
    ⟨fun _ below above => absurd (List.prefix_nil.mp above) below, fun _ _ => nofun,
      fun _ _ _ => nofun⟩
  have known : ∀ call ∈ history, call.1.key = ("t", 0) := by
    intro call member
    have image := List.mem_map_of_mem (f := Prod.fst) member
    rw [asked, List.mem_singleton] at image
    rw [image]
    rfl
  obtain ⟨house, chart, -⟩ := run.charted (.new [] 100 .none unwritten) blank apart known stored
  obtain ⟨readDir, enumerates⟩ := exists_enumeration house chart run.baseDir (by decide) registered
  have plain : ∀ key, broker.registry.Registers key → Plain key.1.toList := by
    intro key held
    obtain ⟨sender, there⟩ := Option.ne_none_iff_exists'.mp held
    obtain ⟨partition, member, keyed⟩ := house.owned.getElem? there
    have same : partition.key = ("t", 0) := house.known partition (List.mem_of_getElem? member)
    rw [show key = ("t", 0) from keyed.symm.trans same]
    decide
  exact ⟨world, broker, history, readDir, run, asked, registered,
    (restart_registers_same_iff blank.base (fun _ _ => rfl) run stored enumerates .none).mpr plain⟩

end Ruka
