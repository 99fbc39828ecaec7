import Mathlib.Logic.Relation
import Ruka.PartitionSessions
import Ruka.TopicRegistry

/-! Concurrent callers of the registry. The lock makes each phase of
`get_or_create_partition` one step; any other call may run between its two
phases, and opening the partition may fail whenever it is tried. -/
namespace Ruka
open LexicalPaths FilePrograms

/-- What `Partition::open_or_create` may come back with: any failure, or what it
returns on the disk as it is by then. -/
inductive Opening (registry : TopicRegistry) (topic : String) (id : UInt32) :
    Except RukaError Partition → Prop
  | failed (error : RukaError) : Opening registry topic id (.error error)
  | opened (readDir : Path → List Name) (world after : World)
      (ran : (registry.openPartition readDir topic id).run world = (.ok (.ok partition), after)) :
      Opening registry topic id (.ok partition)

/-- The section under the write lock, with its answer. -/
inductive Creates (registry : TopicRegistry) (topic : String) (id : UInt32) :
    Except RukaError Nat × TopicRegistry → Prop
  | present (found : (registry.enterTopic topic).find topic id = some sender) :
      Creates registry topic id (.ok sender, registry.enterTopic topic)
  | tried (missing : (registry.enterTopic topic).find topic id = none)
      (opening : Opening registry topic id outcome) :
      Creates registry topic id ((registry.enterTopic topic).settle topic id outcome)

inductive Inquiry where
  | getOrCreatePartition (topic : String) (id : UInt32)
  | getPartition (topic : String) (id : UInt32)

/-- How far a call has come. -/
inductive Progress where
  | asked (inquiry : Inquiry)
  | missed (topic : String) (id : UInt32)
  | answered (topic : String) (id : UInt32) (answer : Except RukaError Nat)

/-- The registry and the calls on it so far, each under a number of its own. -/
structure Shared where
  registry : TopicRegistry
  calls : Nat → Option Progress

namespace Shared

def advance (state : Shared) (call : Nat) (progress : Progress) : Shared :=
  { state with calls := Function.update state.calls call (some progress) }

/-- One call takes one of its steps. -/
inductive Step (state : Shared) : Shared → Prop
  | ask (call : Nat) (inquiry : Inquiry) (unused : state.calls call = none) :
      Step state (state.advance call (.asked inquiry))
  | hit {topic : String} {id : UInt32}
      (asked : state.calls call = some (.asked (.getOrCreatePartition topic id)))
      (found : state.registry.find topic id = some sender) :
      Step state (state.advance call (.answered topic id (.ok sender)))
  | miss {topic : String} {id : UInt32}
      (asked : state.calls call = some (.asked (.getOrCreatePartition topic id)))
      (missing : state.registry.find topic id = none) :
      Step state (state.advance call (.missed topic id))
  | get {topic : String} {id : UInt32}
      (asked : state.calls call = some (.asked (.getPartition topic id))) :
      Step state (state.advance call (.answered topic id (state.registry.getPartition topic id)))
  | create {topic : String} {id : UInt32} {changed : TopicRegistry}
      (missed : state.calls call = some (.missed topic id))
      (creates : Creates state.registry topic id (answer, changed)) :
      Step state ((⟨changed, state.calls⟩ : Shared).advance call (.answered topic id answer))

abbrev Run : Shared → Shared → Prop := Relation.ReflTransGen Step

end Shared

namespace Creates
variable {registry changed : TopicRegistry} {topic other : String} {id otherId : UInt32}

theorem of_run {readDir : Path → List Name} {world after : World}
    (ran : (registry.createPartition readDir topic id).run world = (.ok reply, after)) :
    Creates registry topic id reply := by
  unfold TopicRegistry.createPartition at ran
  split at ran
  · rename_i sender found
    cases ran
    exact .present found
  · rename_i missing
    obtain ⟨outcome, middle, first, last⟩ := Program.exists_of_run_bind ran
    cases last
    cases outcome with
    | error error => exact .tried missing (.failed error)
    | ok partition => exact .tried missing (.opened readDir world _ first)

/-- Either nothing is registered, or a partition for a key that had none. -/
theorem inversion (creates : Creates registry topic id (answer, changed)) :
    (changed = registry.enterTopic topic ∧ ∀ sender, answer = .ok sender →
      registry.find topic id = some sender) ∨ ∃ partition, registry.find topic id = none ∧
      Opening registry topic id (.ok partition) ∧
        answer = .ok registry.actors.length ∧
        changed = (registry.enterTopic topic).register topic id partition := by
  generalize reply : (answer, changed) = outcome at creates
  cases creates with
  | present found =>
    cases reply
    rw [TopicRegistry.find_enterTopic] at found
    exact .inl ⟨rfl, fun sender same => Except.ok.inj same ▸ found⟩
  | @tried outcome missing opening =>
    rw [TopicRegistry.find_enterTopic] at missing
    cases outcome with
    | error error =>
      cases reply
      exact .inl ⟨rfl, nofun⟩
    | ok partition =>
      cases reply
      exact .inr ⟨partition, missing, opening, rfl, rfl⟩

/-- A key that leads somewhere keeps leading there. -/
theorem keeps (creates : Creates registry topic id (answer, changed))
    (found : registry.find other otherId = some sender) :
    changed.find other otherId = some sender := by
  rcases creates.inversion with ⟨rfl, -⟩ | ⟨partition, missing, -, -, rfl⟩
  · rw [TopicRegistry.find_enterTopic, found]
  · rw [TopicRegistry.find_register, if_neg, TopicRegistry.find_enterTopic, found]
    intro same
    obtain ⟨rfl, rfl⟩ := Prod.mk.inj same
    rw [missing] at found
    cases found

private theorem actors_grow (creates : Creates registry topic id (answer, changed)) :
    registry.actors <+: changed.actors := by
  rcases creates.inversion with ⟨rfl, -⟩ | ⟨partition, -, -, -, rfl⟩
  · exact List.prefix_refl _
  · exact List.prefix_append _ _

private theorem owned (creates : Creates registry topic id (answer, changed))
    (owned : registry.Owned) : changed.Owned := by
  rcases creates.inversion with ⟨rfl, -⟩ | ⟨partition, missing, opening, -, rfl⟩
  · exact owned.enterTopic topic
  · cases opening with
    | opened readDir world after ran =>
      refine (owned.enterTopic topic).register ?_ (Partition.key_of_openOrCreate ran)
      rw [TopicRegistry.find_enterTopic, missing]

/-- The sender it hands out is the one the key leads to from then on. -/
theorem answers (creates : Creates registry topic id (.ok sender, changed)) :
    changed.find topic id = some sender := by
  rcases creates.inversion with ⟨rfl, found⟩ | ⟨partition, -, -, same, rfl⟩
  · rw [TopicRegistry.find_enterTopic, found sender rfl]
  · rw [TopicRegistry.find_register, if_pos rfl, Except.ok.inj same]
    rfl

end Creates

namespace Shared
variable {state next final : Shared} {topic : String} {id : UInt32}

/-- The tasks are those of the keys, and every sender handed out is the one its
key leads to. -/
structure Consistent (state : Shared) : Prop where
  owned : state.registry.Owned
  handed : ∀ call topic id sender, state.calls call = some (.answered topic id (.ok sender)) →
    state.registry.find topic id = some sender

private theorem Step.keeps (step : Step state next)
    (found : state.registry.find topic id = some sender) :
    next.registry.find topic id = some sender := by
  cases step with
  | create missed creates => exact creates.keeps found
  | _ => exact found

private theorem Step.actors_grow (step : Step state next) :
    state.registry.actors <+: next.registry.actors := by
  cases step with
  | create missed creates => exact creates.actors_grow
  | _ => exact List.prefix_refl _

/-- A call that gets an answer gets the sender its key leads to. -/
private theorem handed_advance {state : Shared} {call : Nat} {progress : Progress}
    (handed : ∀ call topic id sender, state.calls call = some (.answered topic id (.ok sender)) →
      state.registry.find topic id = some sender)
    (here : ∀ topic id sender, progress = .answered topic id (.ok sender) →
      state.registry.find topic id = some sender) :
    ∀ other topic id sender,
      (state.advance call progress).calls other = some (.answered topic id (.ok sender)) →
      (state.advance call progress).registry.find topic id = some sender := by
  intro other topic id sender held
  by_cases same : other = call
  · subst same
    simp only [advance, Function.update_self, Option.some.injEq] at held
    exact here topic id sender held
  · simp only [advance, Function.update_of_ne same] at held
    exact handed other topic id sender held

private theorem Step.consistent (step : Step state next) (consistent : state.Consistent) :
    next.Consistent := by
  cases step with
  | ask call inquiry unused =>
    exact ⟨consistent.owned, handed_advance consistent.handed nofun⟩
  | hit asked found =>
    refine ⟨consistent.owned, handed_advance consistent.handed fun topic id sender answer => ?_⟩
    cases answer
    exact found
  | miss asked missing =>
    exact ⟨consistent.owned, handed_advance consistent.handed nofun⟩
  | get asked =>
    refine ⟨consistent.owned, handed_advance consistent.handed fun topic id sender answer => ?_⟩
    injection answer with sameTopic sameId same
    subst sameTopic sameId
    unfold TopicRegistry.getPartition at same
    split at same
    · rename_i found
      cases same
      exact found
    · cases same
  | create missed creates =>
    refine ⟨creates.owned consistent.owned, handed_advance (fun call topic id sender held => ?_)
      fun topic id sender answer => ?_⟩
    · exact creates.keeps (consistent.handed call topic id sender held)
    · cases answer
      exact creates.answers

private theorem Run.consistent (run : Run state final) (consistent : state.Consistent) :
    final.Consistent := by
  induction run with
  | refl => exact consistent
  | tail _ step ih => exact step.consistent ih

private theorem Run.keeps (run : Run state final)
    (found : state.registry.find topic id = some sender) :
    final.registry.find topic id = some sender := by
  induction run with
  | refl => exact found
  | tail _ step ih => exact step.keeps ih

private theorem Run.actors_grow (run : Run state final) :
    state.registry.actors <+: final.registry.actors := by
  induction run with
  | refl => exact List.prefix_refl _
  | tail _ step ih => exact ih.trans step.actors_grow

end Shared

/-- The registries a process starts with. -/
inductive Started : TopicRegistry → Prop
  | new (baseDir : Path) (maxSegmentBytes : Nat) (syncLevel : SyncLevel) :
      Started (.new baseDir maxSegmentBytes syncLevel)
  | loaded (readDir : Path → List Name) (world after : World) (tidy : Tidy world baseDir readDir)
      (ran : (TopicRegistry.load readDir baseDir maxSegmentBytes syncLevel).run world =
        (.ok (.ok registry), after)) :
      Started registry

private theorem Started.consistent (started : Started registry) :
    (⟨registry, fun _ => none⟩ : Shared).Consistent := by
  refine ⟨?_, nofun⟩
  cases started with
  | new baseDir maxSegmentBytes syncLevel =>
    exact TopicRegistry.owned_new baseDir maxSegmentBytes syncLevel
  | loaded readDir world after tidy ran => exact TopicRegistry.load_owned tidy ran

/-- However the calls interleave, no key is opened successfully twice, whoever
gets a sender gets that of the one task of the key, and a key that is
registered stays as it is. -/
theorem one_task_per_partition {state final : Shared} (started : Started registry)
    (before : Shared.Run ⟨registry, fun _ => none⟩ state) (later : Shared.Run state final) :
    (state.registry.actors.map Partition.key).Nodup ∧
      (∀ call topic id sender, state.calls call = some (.answered topic id (.ok sender)) →
        state.registry.find topic id = some sender ∧
          (state.registry.actors.map Partition.key)[sender]? = some (topic, id)) ∧
      (∀ topic id sender, state.registry.find topic id = some sender →
        final.registry.find topic id = some sender) ∧
      state.registry.actors <+: final.registry.actors := by
  have consistent := before.consistent started.consistent
  refine ⟨consistent.owned.nodup, fun call topic id sender answered => ?_,
    fun topic id sender => later.keeps, later.actors_grow⟩
  have found := consistent.handed call topic id sender answered
  exact ⟨found, (consistent.owned topic id sender).mp found⟩

/-- Two callers miss the same key; the one that comes second under the write
lock gets the sender of the task the first one spawned. -/
theorem one_task_per_partition_race : ∃ state : Shared,
    Shared.Run ⟨.new [] 100 .none, fun _ => none⟩ state ∧
      state.calls 0 = some (.answered "t" 0 (.ok 0)) ∧
      state.calls 1 = some (.answered "t" 0 (.ok 0)) ∧
      (state.registry.actors.map Partition.key).Nodup ∧
      (state.registry.actors.map Partition.key)[0]? = some ("t", 0) := by
  let start : Shared := ⟨.new [] 100 .none, fun _ => none⟩
  let asking := start.advance 0 (.asked (.getOrCreatePartition "t" 0))
  let asked := asking.advance 1 (.asked (.getOrCreatePartition "t" 0))
  let missing := asked.advance 0 (.missed "t" 0)
  let missed := missing.advance 1 (.missed "t" 0)
  let partition :=
    (⟨"t", 0, partitionDir [] "t" 0, [], 100, .none⟩ : Partition).withTiles [Tile.fresh 0]
  have opened := (Partition.run_openOrCreate_vacant (fun _ => []) "t" 0 [] 100 .none
    (vacant_blankWorld _) (enumerates_blankWorld _)).1
  have created : Creates missed.registry "t" 0 _ :=
    .tried rfl (.opened (fun _ => []) blankWorld _ opened)
  let raced := (⟨(missed.registry.enterTopic "t").register "t" 0 partition, missed.calls⟩ :
    Shared).advance 0 (.answered "t" 0 (.ok 0))
  have first : Shared.Step missed raced := .create rfl created
  have found : Creates raced.registry "t" 0 (.ok 0, raced.registry.enterTopic "t") := .present rfl
  have second : Shared.Step raced _ :=
    .create (show raced.calls 1 = some (.missed "t" 0) from rfl) found
  have run : Shared.Run start _ := Relation.ReflTransGen.refl
    |>.tail (.ask 0 (.getOrCreatePartition "t" 0) rfl : Shared.Step start asking)
    |>.tail (.ask 1 (.getOrCreatePartition "t" 0) rfl : Shared.Step asking asked)
    |>.tail (.miss rfl rfl : Shared.Step asked missing)
    |>.tail (.miss rfl rfl : Shared.Step missing missed)
    |>.tail first
    |>.tail second
  obtain ⟨once, handed, -⟩ := one_task_per_partition (.new [] 100 .none) run .refl
  exact ⟨_, run, rfl, rfl, once, (handed 1 "t" 0 0 rfl).2⟩

end Ruka
