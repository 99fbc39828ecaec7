import Ruka.PartitionOpening
import Ruka.TopicDirectories

/-! The registry of partitions: a nested map from topics and ids to the tasks
that own a partition. A sender is told from others by the number of the task
behind its channel, in the order the tasks were spawned. -/
namespace Ruka
open LexicalPaths FilePrograms DecimalNames

/-- `topic.rs::TopicRegistry`, with the partitions its tasks were given. -/
structure TopicRegistry where
  baseDir : Path
  maxSegmentBytes : Nat
  syncLevel : SyncLevel
  topics : String → Option (UInt32 → Option Nat)
  actors : List Partition

def Partition.key (self : Partition) : String × UInt32 := (self.topic, self.id)

namespace TopicRegistry

/-- `TopicRegistry::new`. -/
def new (baseDir : Path) (maxSegmentBytes : Nat) (syncLevel : SyncLevel) : TopicRegistry :=
  ⟨baseDir, maxSegmentBytes, syncLevel, fun _ => none, []⟩

/-- The lookup every path makes while it holds a lock. -/
def find (self : TopicRegistry) (topic : String) (id : UInt32) : Option Nat :=
  (self.topics topic).bind (· id)

/-- `TopicRegistry::get_partition`. -/
def getPartition (self : TopicRegistry) (topic : String) (id : UInt32) : Except RukaError Nat :=
  match self.find topic id with
  | some sender => .ok sender
  | none => .error (.partitionNotFound topic id)

/-- `map.entry(topic).or_insert_with(HashMap::new)`. -/
def enterTopic (self : TopicRegistry) (topic : String) : TopicRegistry :=
  { self with
    topics := Function.update self.topics topic (some ((self.topics topic).getD fun _ => none)) }

/-- Spawns the task of a partition and keeps its sender. -/
def register (self : TopicRegistry) (topic : String) (id : UInt32) (partition : Partition) :
    TopicRegistry :=
  { self with
    topics := Function.update self.topics topic
      (some (Function.update ((self.topics topic).getD fun _ => none) id (some self.actors.length)))
    actors := self.actors ++ [partition] }

/-- What follows `Partition::open_or_create` under the write lock. -/
def settle (self : TopicRegistry) (topic : String) (id : UInt32) :
    Except RukaError Partition → Except RukaError Nat × TopicRegistry
  | .error error => (.error error, self)
  | .ok partition => (.ok self.actors.length, self.register topic id partition)

def openPartition (readDir : Path → List Name) (self : TopicRegistry) (topic : String)
    (id : UInt32) : Program (Except RukaError Partition) :=
  Partition.openOrCreate readDir topic id self.baseDir self.maxSegmentBytes self.syncLevel

/-- The slow path of `get_or_create_partition`, under the write lock. -/
def createPartition (readDir : Path → List Name) (self : TopicRegistry) (topic : String)
    (id : UInt32) : Program (Except RukaError Nat × TopicRegistry) :=
  match (self.enterTopic topic).find topic id with
  | some sender => pure (.ok sender, self.enterTopic topic)
  | none => do
    let opened ← self.openPartition readDir topic id
    pure ((self.enterTopic topic).settle topic id opened)

/-- `TopicRegistry::get_or_create_partition` when nothing runs between its two locks. -/
def getOrCreatePartition (readDir : Path → List Name) (self : TopicRegistry) (topic : String)
    (id : UInt32) : Program (Except RukaError Nat × TopicRegistry) :=
  match self.find topic id with
  | some sender => pure (.ok sender, self)
  | none => self.createPartition readDir topic id

/-- The registry with the map and the tasks of a scan. -/
def holding (self : TopicRegistry) (topics : String → Option (UInt32 → Option Nat))
    (actors : List Partition) : TopicRegistry :=
  { self with topics := topics, actors := actors }

/-- The inner loop of `TopicRegistry::load`, over the entries of one topic. -/
def loadPartitions (readDir : Path → List Name) (self : TopicRegistry) (topicDir : Path)
    (topic : String) : List Name → (UInt32 → Option Nat) → List Partition →
      Program (Except RukaError ((UInt32 → Option Nat) × List Partition))
  | [], partitions, actors => pure (.ok (partitions, actors))
  | entry :: rest, partitions, actors => do
    if ← isDir (topicDir ++ [entry]) then
      match parseUint (2 ^ 32) entry.val with
      | none => self.loadPartitions readDir topicDir topic rest partitions actors
      | some number => do
        match ← self.openPartition readDir topic (.ofNat number) with
        | .error error => pure (.error error)
        | .ok partition =>
          self.loadPartitions readDir topicDir topic rest
            (Function.update partitions (.ofNat number) (some actors.length))
              (actors ++ [partition])
    else self.loadPartitions readDir topicDir topic rest partitions actors

/-- The outer loop of `TopicRegistry::load`. -/
def loadTopics (readDir : Path → List Name) (self : TopicRegistry) :
    List Name → (String → Option (UInt32 → Option Nat)) → List Partition →
      Program (Except RukaError TopicRegistry)
  | [], topics, actors => pure (.ok (self.holding topics actors))
  | entry :: rest, topics, actors => do
    if ← isDir (self.baseDir ++ [entry]) then
      match ← self.loadPartitions readDir (self.baseDir ++ [entry]) (String.ofList entry.val)
          (readDir (self.baseDir ++ [entry])) (fun _ => none) actors with
      | .error error => pure (.error error)
      | .ok (partitions, actors) =>
        self.loadTopics readDir rest
          (Function.update topics (String.ofList entry.val) (some partitions)) actors
    else self.loadTopics readDir rest topics actors

/-- `TopicRegistry::load`. A file in the place of `base_dir` is an error on
either side of the test. -/
def load (readDir : Path → List Name) (baseDir : Path) (maxSegmentBytes : Nat)
    (syncLevel : SyncLevel) : Program (Except RukaError TopicRegistry) := do
  let registry := new baseDir maxSegmentBytes syncLevel
  if ← isDir baseDir then registry.loadTopics readDir (readDir baseDir) (fun _ => none) []
  else
    match ← createDirAll baseDir with
    | .error error => pure (.error (.io error))
    | .ok () => pure (.ok registry)

variable {registry : TopicRegistry} {topic other : String} {id otherId : UInt32}

@[simp] theorem find_new (baseDir : Path) (maxSegmentBytes : Nat) (syncLevel : SyncLevel)
    (topic : String) (id : UInt32) :
    (new baseDir maxSegmentBytes syncLevel).find topic id = none := rfl

@[simp] theorem find_enterTopic (registry : TopicRegistry) (entered topic : String) (id : UInt32) :
    (registry.enterTopic entered).find topic id = registry.find topic id := by
  by_cases same : topic = entered
  · subst same
    cases held : registry.topics topic <;> simp [find, enterTopic, held]
  · simp [find, enterTopic, same]

/-- A topic that has partitions is already there. -/
theorem enterTopic_of_find (found : registry.find topic id = some sender) :
    registry.enterTopic topic = registry := by
  cases held : registry.topics topic with
  | none => simp [find, held] at found
  | some ids => rw [enterTopic, held, Option.getD_some, ← held, Function.update_eq_self]

theorem find_register (registry : TopicRegistry) (topic : String) (id : UInt32)
    (partition : Partition) (other : String) (otherId : UInt32) :
    (registry.register topic id partition).find other otherId =
      if (other, otherId) = (topic, id) then some registry.actors.length else registry.find
        other otherId := by
  by_cases sameTopic : other = topic
  · subst sameTopic
    by_cases sameId : otherId = id
    · simp [find, register, sameId]
    · cases held : registry.topics other <;> simp [find, register, sameId, held]
  · simp [find, register, sameTopic]

/-- The map and the tasks agree: a key leads to a task exactly when that task
was given the partition of the key. -/
def Owned (registry : TopicRegistry) : Prop :=
  ∀ topic id sender, registry.find topic id = some sender ↔
    (registry.actors.map Partition.key)[sender]? = some (topic, id)

/-- No two tasks were given partitions of the same key. -/
theorem Owned.nodup (owned : registry.Owned) : (registry.actors.map Partition.key).Nodup := by
  apply List.nodup_iff_getElem?_ne_getElem?.mpr
  intro first second ordered within same
  have held := List.getElem?_eq_getElem (Nat.lt_trans ordered within)
  rw [held] at same
  have fromFirst := (owned _ _ first).mpr held
  have fromSecond := (owned _ _ second).mpr same.symm
  have equal : first = second := Option.some.inj (fromFirst.symm.trans fromSecond)
  omega

theorem owned_new (baseDir : Path) (maxSegmentBytes : Nat) (syncLevel : SyncLevel) :
    (new baseDir maxSegmentBytes syncLevel).Owned := by
  intro topic id sender
  simp [new, find]

theorem Owned.enterTopic (owned : registry.Owned) (topic : String) :
    (registry.enterTopic topic).Owned := by
  intro other otherId sender
  rw [find_enterTopic]
  exact owned other otherId sender

/-- A task for a key that had none. -/
theorem Owned.register (owned : registry.Owned) (missing : registry.find topic id = none)
    (keyed : partition.key = (topic, id)) : (registry.register topic id partition).Owned := by
  intro other otherId sender
  have grown : ((registry.register topic id partition).actors.map Partition.key) =
      registry.actors.map Partition.key ++ [(topic, id)] := by
    simp [TopicRegistry.register, keyed]
  rw [find_register, grown]
  rcases Nat.lt_trichotomy sender registry.actors.length with old | last | beyond
  · rw [List.getElem?_append_left (by simpa using old), ← owned]
    split
    · rename_i same
      obtain ⟨rfl, rfl⟩ := Prod.mk.inj same
      rw [missing]
      simpa using Nat.ne_of_gt old
    · exact Iff.rfl
  · subst last
    rw [List.getElem?_append_right (by simp), List.length_map, Nat.sub_self]
    split
    · rename_i same
      simp [same]
    · rename_i differ
      constructor
      · intro found
        have held := (owned _ _ _).mp found
        simp at held
      · intro same
        exact absurd (Option.some.inj same).symm differ
  · have past : registry.actors.length + 1 ≤ sender := beyond
    rw [List.getElem?_eq_none (by simpa using past)]
    constructor
    · intro found
      split at found
      · cases found
        omega
      · have held := (owned _ _ _).mp found
        rw [List.getElem?_eq_none (by simpa using Nat.le_of_lt beyond)] at held
        cases held
    · intro nothing
      cases nothing

/-- Only what a key leads to matters. -/
theorem Owned.of_find {changed : TopicRegistry} (owned : registry.Owned)
    (actors : changed.actors = registry.actors)
    (same : ∀ topic id, changed.find topic id = registry.find topic id) : changed.Owned := by
  intro topic id sender
  rw [same, actors]
  exact owned topic id sender

end TopicRegistry

/-- An opened partition is the one that was asked for. -/
theorem Partition.key_of_openOrCreate {readDir : Path → List Name} {topic : String} {id : UInt32}
    {baseDir : Path} {maxSegmentBytes : Nat} {syncLevel : SyncLevel} {world after : World}
    {partition : Partition}
    (ran : (openOrCreate readDir topic id baseDir maxSegmentBytes syncLevel).run world =
      (.ok (.ok partition), after)) : partition.key = (topic, id) := by
  obtain ⟨made, middle, -, ran⟩ := Program.exists_of_run_bind ran
  cases made with
  | error error => cases ran
  | ok _ =>
    obtain ⟨loaded, middle, -, ran⟩ := Program.exists_of_run_bind ran
    cases loaded with
    | error error => cases ran
    | ok loaded =>
      simp only at ran
      split at ran
      · obtain ⟨created, middle, -, ran⟩ := Program.exists_of_run_bind ran
        cases created with
        | error error => cases ran
        | ok segment =>
          cases ran
          rfl
      · cases ran
        rfl

/-- A data directory as the registry itself would have written it, as far as
names go: every partition directory has the plain decimal name of its id. -/
structure Tidy (world : World) (baseDir : Path) (readDir : Path → List Name) : Prop where
  topics : Enumerates world baseDir (readDir baseDir)
  partitions : ∀ topic ∈ readDir baseDir, world.isDirectory (baseDir ++ [topic]) = true →
    Enumerates world (baseDir ++ [topic]) (readDir (baseDir ++ [topic]))
  decimals : ∀ topic ∈ readDir baseDir, world.isDirectory (baseDir ++ [topic]) = true →
    ∀ entry ∈ readDir (baseDir ++ [topic]),
    world.isDirectory (baseDir ++ [topic] ++ [entry]) = true →
      ∀ number, parseUint (2 ^ 32) entry.val = some number → entry.val = decimal number

namespace TopicRegistry
variable {world final : World} {readDir : Path → List Name} {self registry : TopicRegistry}
  {topicDir : Path} {topics : String → Option (UInt32 → Option Nat)}
  {partitions loaded : UInt32 → Option Nat} {actors grown : List Partition} {listing : List Name}

/-- The entries of a topic that can be loaded as partitions have decimal names. -/
private def Decimals (world : World) (topicDir : Path) (listing : List Name) : Prop :=
  ∀ entry ∈ listing, world.file? (topicDir ++ [entry]) = none →
    ∀ number, parseUint (2 ^ 32) entry.val = some number → entry.val = decimal number

private theorem Decimals.after_run (decimals : Decimals world topicDir listing)
    (program : Program α) : Decimals (program.run world).2 topicDir listing := by
  intro entry member absent
  apply decimals entry member
  by_contra held
  exact program.run_keeps_file held (by simp) absent

private theorem file?_of_isDirectory {path : Path} (below : path ≠ [])
    (present : world.isDirectory path = true) : world.file? path = none := by
  have node : world.node path = some .directory := by simpa [World.isDirectory, below] using present
  simp [World.file?, node]

/-- The loop over one topic registers each id once. -/
private theorem loadPartitions_owned (topicDir : Path) (topic : String)
    (topics : String → Option (UInt32 → Option Nat)) (listing : List Name) (once : listing.Nodup)
    (decimals : Decimals world topicDir listing)
    (unused : ∀ entry ∈ listing, ∀ id : UInt32, entry.val = decimal id.toNat → partitions id = none)
    (owned : (self.holding (Function.update topics topic (some partitions)) actors).Owned)
    (ran : (self.loadPartitions readDir topicDir topic listing partitions actors).run world =
      (.ok (.ok (loaded, grown)), final)) :
    (self.holding (Function.update topics topic (some loaded)) grown).Owned := by
  induction listing generalizing world partitions actors with
  | nil =>
    cases ran
    exact owned
  | cons entry rest ih =>
    obtain ⟨fresh, once⟩ := List.nodup_cons.mp once
    have later : Decimals world topicDir rest := fun other member =>
      decimals other (List.mem_cons_of_mem _ member)
    have unusedLater : ∀ other ∈ rest, ∀ id : UInt32, other.val = decimal id.toNat →
        partitions id = none :=
      fun other member => unused other (List.mem_cons_of_mem _ member)
    unfold loadPartitions at ran
    rw [Program.run_bind_of_run (run_isDir _ _)] at ran
    split at ran
    · rename_i present
      split at ran
      · exact ih once later unusedLater owned ran
      · rename_i number parsed
        have named := decimals entry (by simp)
          (file?_of_isDirectory (by simp) present) number parsed
        have back : (UInt32.ofNat number).toNat = number := by
          simpa using Nat.mod_eq_of_lt (parseUint_lt parsed)
        obtain ⟨opened, middle, first, ran⟩ := Program.exists_of_run_bind ran
        cases opened with
        | error error => cases ran
        | ok partition =>
          have still : Decimals middle topicDir rest := by
            have moved := later.after_run (self.openPartition readDir topic (.ofNat number))
            rwa [first] at moved
          have missing : (self.holding (Function.update topics topic (some partitions))
              actors).find topic (.ofNat number) = none := by
            simpa [find, holding] using unused entry (by simp) (.ofNat number) (by rw [back, named])
          have registered := owned.register missing (Partition.key_of_openOrCreate first)
          refine ih once still (fun other member id decimalName => ?_) ?_ ran
          · rw [Function.update_of_ne]
            · exact unusedLater other member id decimalName
            · rintro rfl
              rw [back, ← named] at decimalName
              exact fresh (Subtype.ext decimalName ▸ member)
          · simpa [register, holding] using registered
    · exact ih once later unusedLater owned ran

/-- The loop over the data directory keeps the map and the tasks in agreement. -/
private theorem loadTopics_owned (listing : List Name) (once : listing.Nodup)
    (inside : ∀ entry ∈ listing, world.file? (self.baseDir ++ [entry]) = none →
      (readDir (self.baseDir ++ [entry])).Nodup ∧
        Decimals world (self.baseDir ++ [entry]) (readDir (self.baseDir ++ [entry])))
    (unused : ∀ entry ∈ listing, topics (String.ofList entry.val) = none)
    (owned : (self.holding topics actors).Owned)
    (ran : (self.loadTopics readDir listing topics actors).run world =
      (.ok (.ok registry), final)) :
    registry.Owned := by
  induction listing generalizing world topics actors with
  | nil =>
    cases ran
    exact owned
  | cons entry rest ih =>
    obtain ⟨fresh, once⟩ := List.nodup_cons.mp once
    unfold loadTopics at ran
    rw [Program.run_bind_of_run (run_isDir _ _)] at ran
    split at ran
    · rename_i present
      obtain ⟨distinct, decimals⟩ := inside entry (by simp) (file?_of_isDirectory (by simp) present)
      obtain ⟨answer, middle, first, ran⟩ := Program.exists_of_run_bind ran
      cases answer with
      | error error => cases ran
      | ok loaded =>
        have free := unused entry (by simp)
        have entered : (self.holding
            (Function.update topics (String.ofList entry.val) (some fun _ => none))
              actors).Owned := by
          refine owned.of_find rfl fun topic id => ?_
          by_cases same : topic = String.ofList entry.val
          · subst same
            simp [find, holding, free]
          · simp [find, holding, same]
        have grown := loadPartitions_owned _ _ topics _ distinct decimals
          (fun _ _ _ _ => rfl) entered first
        refine ih once (fun other member absent => ?_) (fun other member => ?_) grown ran
        · have early : world.file? (self.baseDir ++ [other]) = none := by
            by_contra held
            have kept := Program.run_keeps_file
              (self.loadPartitions readDir (self.baseDir ++ [entry]) (String.ofList entry.val)
                (readDir (self.baseDir ++ [entry])) (fun _ => none) actors) held (by simp)
            rw [first] at kept
            exact kept absent
          obtain ⟨otherDistinct, otherDecimals⟩ :=
            inside other (List.mem_cons_of_mem _ member) early
          refine ⟨otherDistinct, ?_⟩
          have moved := otherDecimals.after_run
            (self.loadPartitions readDir (self.baseDir ++ [entry]) (String.ofList entry.val)
              (readDir (self.baseDir ++ [entry])) (fun _ => none) actors)
          rwa [first] at moved
        · rw [Function.update_of_ne]
          · exact unused other (List.mem_cons_of_mem _ member)
          · intro same
            have names : other = entry := Subtype.ext (String.ofList_injective same)
            exact fresh (names ▸ member)
    · exact ih once (fun other member => inside other (List.mem_cons_of_mem _ member))
        (fun other member => unused other (List.mem_cons_of_mem _ member)) owned ran

/-- Loading a tidy data directory gives every key one task. -/
theorem load_owned {baseDir : Path} {maxSegmentBytes : Nat} {syncLevel : SyncLevel}
    (tidy : Tidy world baseDir readDir)
    (ran : (load readDir baseDir maxSegmentBytes syncLevel).run world =
      (.ok (.ok registry), final)) : registry.Owned := by
  unfold load at ran
  rw [Program.run_bind_of_run (run_isDir _ _)] at ran
  split at ran
  · have directory {path : Path} (listed : world.node path ≠ none)
        (absent : world.file? path = none) : world.isDirectory path = true := by
      rcases World.node_of_no_file absent with missing | present
      · exact absurd missing listed
      · simp [World.isDirectory, present]
    refine loadTopics_owned _ tidy.topics.once (fun topic member absent => ?_) (fun _ _ => rfl)
      (owned_new baseDir maxSegmentBytes syncLevel) ran
    have present := directory ((tidy.topics.every topic).mp member) absent
    have inside := tidy.partitions topic member present
    refine ⟨inside.once, fun entry listed missing => ?_⟩
    exact tidy.decimals topic member present entry listed
      (directory ((inside.every entry).mp listed) missing)
  · obtain ⟨made, middle, -, ran⟩ := Program.exists_of_run_bind ran
    cases made with
    | error error => cases ran
    | ok _ =>
      cases ran
      exact owned_new baseDir maxSegmentBytes syncLevel

end TopicRegistry

end Ruka
