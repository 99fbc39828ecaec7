import Ruka.BrokerStorage
import Ruka.PartitionOwnership

/-! Runs of the broker, one request after the other from a new registry, and
what every such run keeps as long as no call fails and no task panics. -/
namespace Ruka
open BigEndian LexicalPaths FilePrograms Protocol

/-- What a registry is configured with. -/
def TopicRegistry.site (self : TopicRegistry) : Path × Nat × SyncLevel :=
  (self.baseDir, self.maxSegmentBytes, self.syncLevel)

/-- How `handle_request` gets to the task of a request's partition. -/
def Broker.lookup (readDir : Path → List Name) (registry : TopicRegistry) :
    Protocol.Request → Program (Except RukaError Nat × TopicRegistry)
  | .produce req => registry.getOrCreatePartition readDir req.topic req.partition
  | .produceBatch req => registry.getOrCreatePartition readDir req.topic req.partition
  | .fetch req => pure (registry.getPartition req.topic req.partition, registry)

theorem Broker.handleRequest_eq (readDir : Path → List Name) (self : Broker)
    (request : Protocol.Request) :
    self.handleRequest readDir request =
      self.handleWith request (lookup readDir self.registry request) := by
  cases request <;> rfl

/-- Whether handling the request may create its partition. -/
def Protocol.Request.Creates : Protocol.Request → Prop
  | .fetch _ => False
  | _ => True

/-- What the lookup can end in. -/
inductive Found (world : World) (registry : TopicRegistry) (request : Protocol.Request) :
    Except RukaError Nat × TopicRegistry → World → Prop
  | failed (creates : request.Creates) (error : IoError) (changed : TopicRegistry) (after : World) :
      Found world registry request (.error (.io error), changed) after
  | absent (missing : registry.find request.key.1 request.key.2 = none)
      (reads : ¬ request.Creates) :
      Found world registry request (.error (.partitionNotFound request.key.1 request.key.2),
        registry) world
  | present (found : registry.find request.key.1 request.key.2 = some sender) :
      Found world registry request (.ok sender, registry) world
  | created (missing : registry.find request.key.1 request.key.2 = none) (creates : request.Creates)
      (fresh : Partition.Fresh world after request.key.1 request.key.2 registry.baseDir
        registry.maxSegmentBytes registry.syncLevel partition) :
      Found world registry request (.ok registry.actors.length,
        (registry.enterTopic request.key.1).register request.key.1 request.key.2 partition) after

/-- What the slow path can end in. -/
inductive Entered (world : World) (registry : TopicRegistry) (topic : String) (id : UInt32) :
    Except RukaError Nat × TopicRegistry → World → Prop
  | failed (error : IoError) (changed : TopicRegistry) (after : World) :
      Entered world registry topic id (.error (.io error), changed) after
  | present (found : registry.find topic id = some sender) :
      Entered world registry topic id (.ok sender, registry) world
  | created (missing : registry.find topic id = none)
      (fresh : Partition.Fresh world after topic id registry.baseDir registry.maxSegmentBytes
        registry.syncLevel partition) :
      Entered world registry topic id
        (.ok registry.actors.length, (registry.enterTopic topic).register topic id partition) after

theorem TopicRegistry.createPartition_ensures {world : World} {registry : TopicRegistry}
    {topic : String} {id : UInt32} (readDir : Path → List Name)
    (unwritten : registry.find topic id = none →
      ∀ name, world.file? (partitionDir registry.baseDir topic id ++ [name]) = none) :
    (registry.createPartition readDir topic id).Ensures world False
      (Entered world registry topic id) := by
  unfold createPartition
  rw [find_enterTopic]
  split
  · rename_i sender found
    rw [enterTopic_of_find found]
    exact Program.ensures_of_run rfl (.present found)
  · rename_i missing
    refine Program.ensures_bind (Partition.openOrCreate_ensures readDir _ _ _ _ _
      (unwritten missing)) ?_
    rintro opened after (⟨error, rfl⟩ | ⟨partition, rfl, fresh⟩)
    · exact Program.ensures_of_run rfl (.failed error _ _)
    · exact Program.ensures_of_run rfl (.created missing fresh)

private theorem getOrCreatePartition_ensures {world : World} {registry : TopicRegistry}
    (readDir : Path → List Name) (request : Protocol.Request) (creates : request.Creates)
    (unwritten : registry.find request.key.1 request.key.2 = none →
      ∀ name, world.file? (partitionDir registry.baseDir request.key.1 request.key.2 ++
        [name]) = none) :
    (registry.getOrCreatePartition readDir request.key.1 request.key.2).Ensures world False
      (Found world registry request) := by
  unfold TopicRegistry.getOrCreatePartition
  split
  · rename_i sender found
    exact Program.ensures_of_run rfl (.present found)
  · refine (TopicRegistry.createPartition_ensures readDir unwritten).mono (fun trap => trap)
      fun reply after entered => ?_
    cases entered with
    | failed error changed after => exact .failed creates error changed after
    | present found => exact .present found
    | created missing fresh => exact .created missing creates fresh

private theorem Broker.lookup_ensures {world : World} {registry : TopicRegistry}
    {request : Protocol.Request} (readDir : Path → List Name)
    (unwritten : registry.find request.key.1 request.key.2 = none →
      ∀ name, world.file? (partitionDir registry.baseDir request.key.1 request.key.2 ++
        [name]) = none) :
    (lookup readDir registry request).Ensures world False (Found world registry request) := by
  cases request with
  | produce req => exact getOrCreatePartition_ensures readDir (.produce req) trivial unwritten
  | produceBatch req =>
    exact getOrCreatePartition_ensures readDir (.produceBatch req) trivial unwritten
  | fetch req =>
    refine Program.ensures_of_run rfl ?_
    cases found : registry.find req.topic req.partition with
    | none =>
      simp only [TopicRegistry.getPartition, found]
      exact .absent found not_false
    | some sender =>
      simp only [TopicRegistry.getPartition, found]
      exact .present found

namespace Found
variable {keys : String × UInt32 → Prop} {world after : World} {registry changed : TopicRegistry}
  {request : Protocol.Request}

private theorem baseDir (found : Found world registry request (.ok sender, changed) after) :
    changed.baseDir = registry.baseDir := by
  cases found <;> rfl

theorem find (found : Found world registry request (.ok sender, changed) after) :
    changed.find request.key.1 request.key.2 = some sender := by
  cases found with
  | present found => exact found
  | created missing creates fresh => rw [TopicRegistry.find_register, if_pos rfl]; rfl

theorem housed (found : Found world registry request (.ok sender, changed) after)
    (housed : Housed keys world registry) (apart : Apart keys registry.baseDir)
    (known : keys request.key) : Housed keys after changed := by
  cases found with
  | present found => exact housed
  | created missing creates fresh => exact housed.register apart known missing fresh

end Found

/-- What a command to a living task can end in. -/
inductive Replied (world : World) (broker : Broker) (sender : Nat) (partition : Partition)
    (tiles : List Tile) (command : Request) : Except Undelivered Answer × Broker → World → Prop
  | lost (overflow : Segment.Overflows broker.registry.maxSegmentBytes (contents tiles).length
      command.count) (after : World) :
      Replied world broker sender partition tiles command
        (.error .replyLost, { broker with dead := sender :: broker.dead }) after
  | failed (error : IoError) (changed : Broker) (after : World) :
      Replied world broker sender partition tiles command
        (.ok (.offset (.error (.io error))), changed) after
  | answered (keyed : result.key = partition.key)
      (lives : command.Small → Lives after broker.registry.baseDir broker.registry.maxSegmentBytes
        broker.registry.syncLevel result others)
      (outside : World.SameOutside
        (partitionDir broker.registry.baseDir partition.topic partition.id) world after)
      (explained : LogStep broker.registry.maxSegmentBytes (logOf tiles) command answer
        (logOf others)) :
      Replied world broker sender partition tiles command
        (.ok answer, { broker with registry := broker.registry.replace sender result }) after

private theorem Broker.ask_ensures {world : World} {broker : Broker} {partition : Partition}
    {tiles : List Tile} (held : broker.registry.actors[sender]? = some partition)
    (alive : sender ∉ broker.dead)
    (lives : Lives world broker.registry.baseDir broker.registry.maxSegmentBytes
      broker.registry.syncLevel partition tiles) (command : Request) :
    (broker.ask sender command).Ensures world False
      (Replied world broker sender partition tiles command) := by
  have ends := lives.serve_ensures command
  unfold Program.Ensures at ends
  unfold ask
  rw [held]
  simp only [alive, ↓reduceIte]
  split at ends
  · rename_i reply after ran
    have tried : ((partition.serve command).attempt).run world = (.ok (some reply), after) := by
      rw [Program.run_attempt, ran]
    refine Program.ensures_bind_of_run tried (Program.ensures_of_run rfl ?_)
    obtain ⟨answer, result⟩ := reply
    obtain ⟨error, failed⟩ | ⟨others, keyed, small, outside, explained⟩ := ends
    · obtain rfl : answer = .offset (.error (.io error)) := failed
      exact .failed error _ _
    · exact .answered keyed small outside explained
  · rename_i after ran
    have tried : ((partition.serve command).attempt).run world = (.ok none, after) := by
      rw [Program.run_attempt, ran]
    exact Program.ensures_bind_of_run tried (Program.ensures_of_run rfl (.lost ends _))
  · exact ends.elim

/-- A new registry that has handled some requests. -/
inductive BrokerRun (start : World) (first : TopicRegistry) :
    World → Broker → List (Protocol.Request × Response) → Prop
  | started : BrokerRun start first start ⟨first, []⟩ []
  | handled (run : BrokerRun start first world broker history) (readDir : Path → List Name)
      (decoded : request.Decoded)
      (ran : (broker.handleRequest readDir request).run world = (.ok (response, changed), after)) :
      BrokerRun start first after changed (history ++ [(request, response)])

/-- The directory and the limits never change. -/
theorem Creates.site {registry changed : TopicRegistry} {topic : String} {id : UInt32}
    (creates : Creates registry topic id (answer, changed)) : changed.site = registry.site := by
  rcases creates.inversion with ⟨rfl, -⟩ | ⟨partition, -, -, -, rfl⟩ <;> rfl

/-- No call of the operating system failed so far. -/
def Faultless (history : List (Protocol.Request × Response)) : Prop :=
  ∀ call ∈ history, ∀ error, call.2 ≠ .ofError call.1.correlationId (.io error)

namespace Broker
variable {keys : String × UInt32 → Prop} {world after : World} {broker changed : Broker}
  {request : Protocol.Request} {response : Response}

/-- A handled request went through the lookup and, if that found a task, through it. -/
theorem exists_of_handleRequest {readDir : Path → List Name}
    (ran : (broker.handleRequest readDir request).run world = (.ok (response, changed), after)) :
    (∃ error registry,
      (lookup readDir broker.registry request).run world = (.ok (.error error, registry), after) ∧
        response = .ofError request.correlationId error ∧
        changed = { broker with registry := registry }) ∨
      ∃ sender registry middle reply,
        (lookup readDir broker.registry request).run world = (.ok (.ok sender, registry), middle) ∧
        (({ broker with registry := registry } : Broker).ask sender request.command).run middle =
          (.ok (reply, changed), after) ∧ response = request.respond reply := by
  rw [handleRequest_eq] at ran
  obtain ⟨⟨found, registry⟩, middle, first, ran⟩ := Program.exists_of_run_bind ran
  cases found with
  | error error =>
    cases ran
    exact .inl ⟨error, registry, first, rfl, rfl⟩
  | ok sender =>
    obtain ⟨⟨reply, asked⟩, last, second, ran⟩ := Program.exists_of_run_bind ran
    cases ran
    exact .inr ⟨sender, registry, middle, reply, first, second, rfl⟩

/-- A command changes nothing, ends its task, or moves its partition on. -/
theorem cases_of_ask (ran : (broker.ask sender command).run world = (.ok (reply, changed), after)) :
    changed = broker ∨ changed = { broker with dead := sender :: broker.dead } ∨
      ∃ partition,
        changed = { broker with registry := broker.registry.replace sender partition } := by
  unfold ask at ran
  split at ran
  · cases ran
    exact .inl rfl
  · split at ran
    · cases ran
      exact .inl rfl
    · obtain ⟨tried, middle, -, ran⟩ := Program.exists_of_run_bind ran
      cases tried with
      | none =>
        cases ran
        exact .inr (.inl rfl)
      | some served =>
        cases ran
        exact .inr (.inr ⟨served.2, rfl⟩)

private theorem dead_of_ask
    (ran : (broker.ask sender command).run world = (.ok (reply, changed), after))
    (alive : changed.dead = []) : broker.dead = [] := by
  rcases cases_of_ask ran with rfl | rfl | ⟨partition, rfl⟩
  · exact alive
  · cases alive
  · exact alive

/-- Tasks stay dead. -/
theorem dead_of_handleRequest {readDir : Path → List Name}
    (ran : (broker.handleRequest readDir request).run world = (.ok (response, changed), after))
    (alive : changed.dead = []) : broker.dead = [] := by
  rcases exists_of_handleRequest ran with ⟨error, registry, -, -, rfl⟩ | ⟨sender, registry, middle,
    reply, -, asked, -⟩
  · exact alive
  · exact (dead_of_ask asked alive : (⟨registry, broker.dead⟩ : Broker).dead = [])

/-- A lookup leaves the registry alone or goes through the write lock. -/
theorem cases_of_lookup {registry found : TopicRegistry} {readDir : Path → List Name}
    (ran : (lookup readDir registry request).run world = (.ok (answer, found), after)) :
    (found = registry ∧ ∀ sender, answer = .ok sender →
      registry.find request.key.1 request.key.2 = some sender) ∨
      Ruka.Creates registry request.key.1 request.key.2 (answer, found) := by
  have created {topic : String} {id : UInt32}
      (ran : (registry.getOrCreatePartition readDir topic id).run world =
        (.ok (answer, found), after)) :
      (found = registry ∧ ∀ sender, answer = .ok sender → registry.find topic id = some sender) ∨
        Ruka.Creates registry topic id (answer, found) := by
    unfold TopicRegistry.getOrCreatePartition at ran
    split at ran
    · rename_i sender held
      cases ran
      exact .inl ⟨rfl, fun _ same => Except.ok.inj same ▸ held⟩
    · exact .inr (.of_run ran)
  cases request with
  | produce req => exact created ran
  | produceBatch req => exact created ran
  | fetch req =>
    cases ran
    refine .inl ⟨rfl, fun sender same => ?_⟩
    unfold TopicRegistry.getPartition at same
    split at same
    · rename_i held
      cases same
      exact held
    · cases same

private theorem site_of_lookup {registry found : TopicRegistry} {readDir : Path → List Name}
    (ran : (lookup readDir registry request).run world = (.ok (answer, found), after)) :
    found.site = registry.site := by
  rcases cases_of_lookup ran with ⟨rfl, -⟩ | creates
  · rfl
  · exact creates.site

private theorem site_of_ask
    (ran : (broker.ask sender command).run world = (.ok (reply, changed), after)) :
    changed.registry.site = broker.registry.site := by
  rcases cases_of_ask ran with rfl | rfl | ⟨partition, rfl⟩ <;> rfl

private theorem site_of_handleRequest {readDir : Path → List Name}
    (ran : (broker.handleRequest readDir request).run world = (.ok (response, changed), after)) :
    changed.registry.site = broker.registry.site := by
  rcases exists_of_handleRequest ran with
    ⟨error, registry, looked, -, rfl⟩ | ⟨sender, registry, middle, reply, looked, asked, -⟩
  · exact site_of_lookup looked
  · exact (site_of_ask asked).trans (site_of_lookup looked)

end Broker

namespace Housed
variable {keys : String × UInt32 → Prop} {world after : World} {broker changed : Broker}
  {request : Protocol.Request} {response : Response}

theorem lookup_ensures (housed : Housed keys world broker.registry) (known : keys request.key)
    (readDir : Path → List Name) :
    (Broker.lookup readDir broker.registry request).Ensures world False
      (Found world broker.registry request) :=
  Broker.lookup_ensures readDir fun missing => housed.unwritten _ _ ⟨known, missing⟩

/-- The task a lookup found, and what it can reply. -/
theorem ask_ensures {registry : TopicRegistry} {topic : String} {id : UInt32}
    (housed : Housed keys world registry) (found : registry.find topic id = some sender)
    (dead : List Nat) (alive : sender ∉ dead) (command : Request) :
    ∃ partition tiles, registry.actors[sender]? = some partition ∧ partition.key = (topic, id) ∧
      Lives world registry.baseDir registry.maxSegmentBytes registry.syncLevel partition tiles ∧
      ((⟨registry, dead⟩ : Broker).ask sender command).Ensures world False
        (Replied world ⟨registry, dead⟩ sender partition tiles command) := by
  obtain ⟨partition, held, keyed⟩ := housed.owned.getElem? found
  obtain ⟨tiles, lives⟩ := housed.lives partition (List.mem_of_getElem? held)
  exact ⟨partition, tiles, held, keyed, lives, Broker.ask_ensures held alive lives command⟩

/-- A request without a failed call and without a panic keeps every partition. -/
theorem handled {readDir : Path → List Name} (housed : Housed keys world broker.registry)
    (apart : Apart keys broker.registry.baseDir) (known : keys request.key)
    (small : request.command.Small)
    (ran : (broker.handleRequest readDir request).run world = (.ok (response, changed), after))
    (alive : changed.dead = [])
    (faultless : ∀ error, response ≠ .ofError request.correlationId (.io error)) :
    Housed keys after changed.registry := by
  have lookup := housed.lookup_ensures known readDir
  have living := Broker.dead_of_handleRequest ran alive
  rcases Broker.exists_of_handleRequest ran with
    ⟨error, registry, looked, rfl, rfl⟩ | ⟨sender, registry, middle, reply, looked, asked, rfl⟩
  · have ended := lookup.of_run looked
    cases ended with
    | failed creates error => exact absurd rfl (faultless error)
    | absent missing reads => exact housed
  · have found := lookup.of_run looked
    have house := found.housed housed apart known
    obtain ⟨partition, tiles, held, -, -, asks⟩ :=
      house.ask_ensures found.find broker.dead (by simp [living]) request.command
    have replied := asks.of_run asked
    cases replied with
    | lost overflow => cases alive
    | failed error => exact absurd rfl (faultless error)
    | answered keyed lives outside explained =>
      exact house.serve (found.baseDir ▸ apart) held keyed (lives small) outside

end Housed

namespace BrokerRun
variable {keys : String × UInt32 → Prop} {start world : World} {first : TopicRegistry}
  {broker : Broker} {history : List (Protocol.Request × Response)}

theorem site (run : BrokerRun start first world broker history) :
    broker.registry.site = first.site := by
  induction run with
  | started => rfl
  | handled run readDir decoded ran ih => exact (Broker.site_of_handleRequest ran).trans ih

theorem baseDir (run : BrokerRun start first world broker history) :
    broker.registry.baseDir = first.baseDir :=
  congrArg Prod.fst run.site

theorem housed (run : BrokerRun start first world broker history) (housed : Housed keys start first)
    (apart : Apart keys first.baseDir) (known : ∀ call ∈ history, keys call.1.key)
    (alive : broker.dead = []) (faultless : Faultless history) :
    Housed keys world broker.registry := by
  induction run with
  | started => exact housed
  | handled run readDir decoded ran ih =>
    have before := ih (fun call member => known call (List.mem_append_left _ member))
      (Broker.dead_of_handleRequest ran alive) fun call member =>
        faultless call (List.mem_append_left _ member)
    refine before.handled (run.baseDir ▸ apart)
      (known _ (List.mem_append_right _ (List.mem_singleton.mpr rfl)))
        decoded.small_command ran alive ?_
    exact faultless _ (List.mem_append_right _ (List.mem_singleton.mpr rfl))

end BrokerRun

/-- The first message on a blank disk is stored at offset zero. -/
theorem exists_first_append (topic : String) (id : UInt32) (baseDir : Path) (maxSegmentBytes : Nat)
    (syncLevel : SyncLevel) (payload : Bytes) (limit : maxSegmentBytes < 2 ^ 63)
    (fits : recordLen none (some payload) ≤ maxSegmentBytes)
    (small : recordLen none (some payload) < 2 ^ 32) : ∃ partition laid result after tiles stamp,
      (Partition.openOrCreate (fun _ => []) topic id baseDir maxSegmentBytes
        syncLevel).run blankWorld = (.ok (.ok partition), laid) ∧
      (partition.serve (.append none (some payload))).run laid =
        (.ok (.offset (.ok 0), result), after) ∧
      Lives after baseDir maxSegmentBytes syncLevel result tiles ∧
      contents tiles = [⟨stamp, none, some payload⟩] := by
  let frame : Partition :=
    ⟨topic, id, partitionDir baseDir topic id, [], maxSegmentBytes, syncLevel⟩
  obtain ⟨opened, layout⟩ := Partition.run_openOrCreate_vacant (fun _ => []) topic id baseDir
    maxSegmentBytes syncLevel (vacant_blankWorld _) (enumerates_blankWorld _)
  generalize (Tile.fresh 0).lay _ _ = laid at opened layout
  have filed : Filed laid frame.baseDir frame.maxSegmentBytes
      ([] ++ [Tile.fresh 0]) := layout.toFiled
  obtain ⟨⟨answer, result⟩, after, ran, ended⟩ :=
    (Partition.append_ensures filed none (some payload) fun _ => .inl rfl).returns
      fun overflow => by
      rcases overflow with wide | long
      · exact absurd limit (Nat.not_lt.mpr wide)
      · simp [contents, Tile.fresh] at long
  cases ended with
  | tooLarge large => exact absurd fits (Nat.not_le.mpr large)
  | blocked nests => exact absurd nests layout.sole
  | stored stamp grown =>
    obtain ⟨others, rfl, later, held, mode, -⟩ := grown
    refine ⟨_, laid, frame.withTiles others, after, others, stamp, opened,
      Program.run_bind_of_run ran _, ⟨rfl, later, mode fun tile member => ?_, ?_⟩, held⟩
    · rw [List.mem_singleton.mp member]
      rfl
    · rw [held]
      intro message member
      rw [List.mem_singleton.mp member]
      exact small

theorem run_first_produce (baseDir : Path) (maxSegmentBytes : Nat) (syncLevel : SyncLevel)
    (request : ProduceRequest) (limit : maxSegmentBytes < 2 ^ 63)
    (fits : recordLen none (some request.payload) ≤ maxSegmentBytes)
    (small : recordLen none (some request.payload) < 2 ^ 32) : ∃ world broker partition tiles stamp,
      ((⟨.new baseDir maxSegmentBytes syncLevel, []⟩ : Broker).handleRequest (fun _ => [])
        (.produce request)).run
          blankWorld =
        (.ok (.produce ⟨request.correlationId, request.topic, request.partition, 0⟩,
          broker), world) ∧
      broker.dead = [] ∧ broker.registry.find request.topic request.partition = some 0 ∧
      broker.registry.actors[0]? = some partition ∧
      Lives world broker.registry.baseDir broker.registry.maxSegmentBytes broker.registry.syncLevel
        partition tiles ∧
      contents tiles = [⟨stamp, none, some request.payload⟩] := by
  obtain ⟨partition, laid, result, after, tiles, stamp, opened, served, lives, held⟩ :=
    exists_first_append request.topic request.partition baseDir maxSegmentBytes syncLevel
      request.payload limit fits small
  let registry := ((TopicRegistry.new baseDir maxSegmentBytes syncLevel).enterTopic
    request.topic).register request.topic request.partition partition
  have looked : (Broker.lookup (fun _ => []) (.new baseDir maxSegmentBytes syncLevel)
      (.produce request)).run blankWorld = (.ok (.ok 0, registry), laid) := by
    unfold Broker.lookup TopicRegistry.getOrCreatePartition TopicRegistry.createPartition
    simp only [TopicRegistry.find_enterTopic, TopicRegistry.find_new]
    exact Program.run_bind_of_run opened _
  have tried : (partition.serve (.append none (some request.payload))).attempt.run laid =
      (.ok (some (.offset (.ok 0), result)), after) := by
    rw [Program.run_attempt, served]
  have asked : ((⟨registry, []⟩ : Broker).ask 0 (.append none (some request.payload))).run laid =
      (.ok (.ok (.offset (.ok 0)), ⟨registry.replace 0 result, []⟩), after) :=
    Program.run_bind_of_run tried _
  refine ⟨after, ⟨registry.replace 0 result, []⟩, result, tiles, stamp, ?_, rfl, ?_,
    rfl, lives, held⟩
  · rw [Broker.handleRequest_eq, Broker.handleWith, Program.run_bind_of_run looked]
    exact Program.run_bind_of_run asked _
  · rw [TopicRegistry.find_replace, TopicRegistry.find_register, if_pos rfl]
    rfl

end Ruka
