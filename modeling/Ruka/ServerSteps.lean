import Ruka.ConnectionSteps
import Ruka.FrameStreams
import Ruka.TaskOutcomes

/-! The server with everything that can happen to it. A connection reads bytes
as they come in, takes requests off its buffer and writes responses; a task takes
one command at a time out of a channel of limited capacity. Calls of the file
system may fail, a task or the opening of a partition may panic, a client may
stop sending or stop listening, and any step that is possible may come next. -/
namespace Ruka
open BigEndian LexicalPaths FilePrograms StreamDecoding Protocol

/-- The next request in the buffer of a connection. A frame that is no request
ends the loop of `handle_connection` just as bytes that are no frame. -/
def nextRequest : Decoder UInt8 RukaError Protocol.Request :=
  Decoder.checked RukaCodec.decode Protocol.Request.fromFrame

theorem nextRequest_incremental : Incremental nextRequest :=
  Frame.decode_incremental.checked Protocol.Request.fromFrame_total

theorem decoded_of_nextRequest (gives : nextRequest src = some (.ok (some request), rest)) :
    request.Decoded := by
  unfold nextRequest Decoder.checked at gives
  split at gives
  · cases gives
  · cases gives
  · cases gives
  · rename_i frame left decoded
    obtain ⟨verdict, read, same⟩ := Option.map_eq_some_iff.mp gives
    cases verdict with
    | error error => cases same
    | ok found =>
      cases same
      exact ⟨src, frame, _, decoded, read⟩

namespace Server

/-- Where a connection is in its loop. -/
inductive Stage where
  | reading
  | received (request : Protocol.Request)
  | missed (request : Protocol.Request)
  | refused (request : Protocol.Request) (error : RukaError)
  | routed (request : Protocol.Request) (sender : Nat)
  | waiting (request : Protocol.Request) (sender : Nat)
  | replied (request : Protocol.Request) (reply : Except Undelivered Answer)
  | closed

/-- The response that is to be sent next. -/
def Stage.response : Stage → Option (Protocol.Request × Response)
  | .refused request error => some (request, .ofError request.correlationId error)
  | .replied request reply => some (request, request.respond reply)
  | _ => none

/-- What becomes of a connection when the task of `sender` panics: the channel
its reply was to come over is dropped. -/
def Stage.lose (sender : Nat) : Stage → Stage
  | .waiting request target =>
    if target = sender then .replied request (.error .replyLost) else .waiting request target
  | stage => stage

/-- The same connection without its bytes, as long as all goes well. -/
def Stage.phase : Stage → Phase
  | .reading => .idle
  | .received request => .received request
  | .missed request => .missed request
  | .refused request error => .refused request error
  | .routed request sender => .routed request sender
  | .waiting request sender => .waiting request sender
  | .replied request (.ok answer) => .replied request answer
  | .replied _ (.error _) => .idle
  | .closed => .idle

/-- A connection and what it has read beyond the request it is at. -/
structure Connection where
  stage : Stage
  buffer : Bytes

/-- The task of a partition: what is in its channel, what it has taken out and
not yet replied to, and whether it has panicked. -/
structure Task (ι : Type) where
  queue : List (ι × Protocol.Request)
  current : Option (ι × Protocol.Request)
  dead : Bool

def Task.unanswered (task : Task ι) : List (ι × Protocol.Request) :=
  task.current.toList ++ task.queue

/-- What a step shows of itself. -/
inductive Signal (ι : Type) where
  | arrived (client : ι) (chunk : Bytes)
  | left (client : ι)
  | rejected (client : ι)
  | received (client : ι) (request : Protocol.Request)
  | failed (client : ι) (request : Protocol.Request) (error : RukaError)
  | crashed (client : ι)
  | served (client : ι) (request : Protocol.Request) (answer : Answer)
  | died (sender : Nat)
  | responded (client : ι) (request : Protocol.Request) (response : Response) (sent : Bytes)

end Server

/-- The whole process. Connections that have not been accepted yet have read
nothing. -/
structure Server (ι : Type) where
  world : World
  registry : TopicRegistry
  tasks : Nat → Server.Task ι
  connections : ι → Server.Connection

namespace Server
variable {ι : Type}

/-- A server on a registry, before any connection said anything. -/
def start (world : World) (registry : TopicRegistry) : Server ι :=
  ⟨world, registry, fun _ => ⟨[], none, false⟩, fun _ => ⟨.reading, []⟩⟩

def setTask (state : Server ι) (sender : Nat) (task : Task ι) : Server ι :=
  { state with tasks := Function.update state.tasks sender task }

/-- Every connection that waits for the task hears that it is gone. -/
def lose (state : Server ι) (sender : Nat) : Server ι :=
  { state with connections := fun client =>
      { state.connections client with stage := (state.connections client).stage.lose sender } }

/-- The server without its bytes: a command that was taken out counts as one
still in the mailbox. -/
def hub (state : Server ι) : Hub ι :=
  ⟨state.world, state.registry, fun sender => (state.tasks sender).unanswered,
    fun client => (state.connections client).stage.phase⟩

theorem hub_setTask (state : Server ι) (sender : Nat) (task : Task ι) :
    (state.setTask sender task).hub =
      { state.hub with
        mailboxes := Function.update state.hub.mailboxes sender task.unanswered } := by
  have same : (fun other => (Function.update state.tasks sender task other).unanswered) =
      Function.update state.hub.mailboxes sender task.unanswered := by
    funext other
    by_cases here : other = sender
    · subst here
      simp
    · simp [here, hub]
  exact congrArg (fun mailboxes =>
    (⟨state.world, state.registry, mailboxes, state.hub.clients⟩ : Hub ι)) same

variable [DecidableEq ι]

def set (state : Server ι) (client : ι) (connection : Connection) : Server ι :=
  { state with connections := Function.update state.connections client connection }

@[simp] theorem connections_set_self (state : Server ι) (client : ι) (connection : Connection) :
    (state.set client connection).connections client = connection := by
  simp [set]

theorem connections_set_ne (state : Server ι) {client other : ι} (connection : Connection)
    (differ : other ≠ client) :
    (state.set client connection).connections other = state.connections other := by
  simp [set, differ]

/-- One connection or one task takes a step. Every call in `site` may fail
whenever it is made. -/
inductive Step (capacity : Nat) (site : Call → Prop) (state : Server ι) :
    Option (Signal ι) → Server ι → Prop
  | arrive (chunk : Bytes) (nonempty : chunk ≠ [])
      (ready : state.connections client = ⟨.reading, buffer⟩)
      (waits : nextRequest buffer = some (.ok none, buffer)) :
      Step capacity site state (some (.arrived client chunk))
        (state.set client ⟨.reading, buffer ++ chunk⟩)
  | leave (ready : state.connections client = ⟨.reading, buffer⟩)
      (waits : nextRequest buffer = some (.ok none, buffer)) :
      Step capacity site state (some (.left client)) (state.set client ⟨.closed, buffer⟩)
  | reject (ready : state.connections client = ⟨.reading, buffer⟩)
      (refuses : nextRequest buffer = some (.error error, rest)) :
      Step capacity site state (some (.rejected client)) (state.set client ⟨.closed, buffer⟩)
  | receive (ready : state.connections client = ⟨.reading, buffer⟩)
      (gives : nextRequest buffer = some (.ok (some request), rest)) :
      Step capacity site state (some (.received client request))
        (state.set client ⟨.received request, rest⟩)
  | hit (asked : state.connections client = ⟨.received request, buffer⟩)
      (found : state.registry.find request.key.1 request.key.2 = some sender) :
      Step capacity site state none (state.set client ⟨.routed request sender, buffer⟩)
  | miss (asked : state.connections client = ⟨.received request, buffer⟩)
      (creates : request.Creates)
      (missing : state.registry.find request.key.1 request.key.2 = none) :
      Step capacity site state none (state.set client ⟨.missed request, buffer⟩)
  | refuse (asked : state.connections client = ⟨.received request, buffer⟩)
      (reads : ¬ request.Creates)
      (failed : state.registry.getPartition request.key.1 request.key.2 = .error error) :
      Step capacity site state none (state.set client ⟨.refused request error, buffer⟩)
  | create {changed : TopicRegistry} {after : World}
      (missed : state.connections client = ⟨.missed request, buffer⟩) (readDir : Path → List Name)
      (yields : (state.registry.createPartition readDir request.key.1 request.key.2).Yields
        site state.world (.ok (.ok sender, changed)) after) :
      Step capacity site state none
        (({ state with world := after, registry := changed } : Server ι).set client
          ⟨.routed request sender, buffer⟩)
  | fail {changed : TopicRegistry} {after : World}
      (missed : state.connections client = ⟨.missed request, buffer⟩) (readDir : Path → List Name)
      (yields : (state.registry.createPartition readDir request.key.1 request.key.2).Yields
        site state.world (.ok (.error error, changed)) after) :
      Step capacity site state (some (.failed client request error))
        (({ state with world := after, registry := changed } : Server ι).set client
          ⟨.refused request error, buffer⟩)
  -- the entry of the topic is made before the partition is opened
  | crash {after : World} (missed : state.connections client = ⟨.missed request, buffer⟩)
      (readDir : Path → List Name)
      (yields : (state.registry.createPartition readDir request.key.1 request.key.2).Yields
        site state.world (.error .panic) after) :
      Step capacity site state (some (.crashed client))
        (({ state with world := after, registry := state.registry.enterTopic request.key.1 } :
          Server ι).set client ⟨.closed, buffer⟩)
  | send (routed : state.connections client = ⟨.routed request sender, buffer⟩)
      (alive : (state.tasks sender).dead = false)
      (room : (state.tasks sender).queue.length < capacity) :
      Step capacity site state none
        ((state.setTask sender { state.tasks sender with
          queue := (state.tasks sender).queue ++ [(client, request)] }).set client
            ⟨.waiting request sender, buffer⟩)
  | bounce (routed : state.connections client = ⟨.routed request sender, buffer⟩)
      (dead : (state.tasks sender).dead = true) :
      Step capacity site state none
        (state.set client ⟨.replied request (.error .writerDied), buffer⟩)
  | take (free : (state.tasks sender).current = none)
      (queued : (state.tasks sender).queue = command :: rest) :
      Step capacity site state none
        (state.setTask sender { state.tasks sender with current := some command, queue := rest })
  | serve {after : World} (current : (state.tasks sender).current = some (client, request))
      (held : state.registry.actors[sender]? = some partition)
      (yields : (partition.serve request.command).Yields site state.world
        (.ok (answer, result)) after) :
      Step capacity site state (some (.served client request answer))
        ((({ state with world := after, registry := state.registry.replace sender result } :
          Server ι).setTask sender { state.tasks sender with current := none }).set client
            { state.connections client with stage := .replied request (.ok answer) })
  | panic {after : World} (current : (state.tasks sender).current = some (client, request))
      (held : state.registry.actors[sender]? = some partition)
      (yields : (partition.serve request.command).Yields site state.world (.error .panic) after) :
      Step capacity site state (some (.died sender))
        ((({ state with world := after } : Server ι).setTask sender ⟨[], none, true⟩).lose sender)
  -- `framed.send` comes to an end once the client has read enough
  | respond (ready : state.connections client = ⟨stage, buffer⟩)
      (answer : stage.response = some (request, response)) :
      Step capacity site state (some (.responded client request response response.intoFrame.encode))
        (state.set client ⟨.reading, buffer⟩)
  -- a write that fails has put some first part of the frame on the wire
  | sever (ready : state.connections client = ⟨stage, buffer⟩)
      (answer : stage.response = some (request, response))
      (part : sent <+: response.intoFrame.encode) :
      Step capacity site state (some (.responded client request response sent))
        (state.set client ⟨.closed, buffer⟩)

/-- Steps one after the other, with what they showed. -/
inductive Run (capacity : Nat) (site : Call → Prop) (first : Server ι) :
    List (Signal ι) → Server ι → Prop
  | start : Run capacity site first [] first
  | step (run : Run capacity site first trace state) (step : Step capacity site state label next) :
      Run capacity site first (trace ++ label.toList) next

theorem hub_set (state : Server ι) (client : ι) (connection : Connection) :
    (state.set client connection).hub = state.hub.advance client connection.stage.phase := by
  have same : (fun other => (Function.update state.connections client connection
      other).stage.phase) = Function.update state.hub.clients client connection.stage.phase := by
    funext other
    by_cases here : other = client
    · subst here
      simp
    · simp [here, hub]
  exact congrArg (fun clients =>
    (⟨state.world, state.registry, state.hub.mailboxes, clients⟩ : Hub ι)) same

/-- A connection that stays where it is as far as the hub can see. -/
theorem hub_set_eq {state : Server ι} (client : ι) (connection : Connection)
    (same : (state.connections client).stage.phase = connection.stage.phase) :
    (state.set client connection).hub = state.hub := by
  rw [hub_set, Hub.advance, ← same]
  exact congrArg (fun clients => (⟨state.world, state.registry, state.hub.mailboxes, clients⟩ :
    Hub ι)) (Function.update_eq_self client state.hub.clients)

end Server

/-! ## The registry under failing calls -/

/-- Creating a partition registers nothing, or one for a key that had none. -/
theorem TopicRegistry.cases_of_yields {site : Call → Prop} {world after : World}
    {registry changed : TopicRegistry} {topic : String} {id : UInt32} {readDir : Path → List Name}
    (yields : (registry.createPartition readDir topic id).Yields site world
      (.ok (answer, changed)) after) :
    (changed = registry.enterTopic topic ∧
      ∀ sender, answer = .ok sender → registry.find topic id = some sender) ∨
      ∃ partition, registry.find topic id = none ∧ partition.key = (topic, id) ∧
        answer = .ok registry.actors.length ∧
        changed = (registry.enterTopic topic).register topic id partition := by
  unfold createPartition at yields
  split at yields
  · rename_i sender found
    obtain ⟨same, -⟩ := yields
    cases same
    rw [find_enterTopic] at found
    refine .inl ⟨rfl, fun other same => ?_⟩
    cases same
    exact found
  · rename_i missing
    rw [find_enterTopic] at missing
    obtain ⟨opened, middle, first, same, -⟩ := yields.of_bind
    cases opened with
    | error error =>
      cases same
      exact .inl ⟨rfl, nofun⟩
    | ok partition =>
      cases same
      have keyed := (Partition.meets_openOrCreate readDir topic id _ _ _).of_yields
        first partition rfl
      exact .inr ⟨partition, missing, keyed, rfl, rfl⟩

/-- What creating a partition does to the lookups. -/
structure TopicRegistry.Grows (registry changed : TopicRegistry) : Prop where
  keeps : ∀ topic id sender, registry.find topic id = some sender →
    changed.find topic id = some sender
  owned : registry.Owned → changed.Owned

private theorem TopicRegistry.grows_enterTopic (registry : TopicRegistry) (topic : String) :
    registry.Grows (registry.enterTopic topic) where
  keeps other id sender found := by rw [find_enterTopic, found]
  owned owned := owned.enterTopic topic

private theorem TopicRegistry.grows_of_yields {site : Call → Prop} {world after : World}
    {registry changed : TopicRegistry} {topic : String} {id : UInt32} {readDir : Path → List Name}
    (yields : (registry.createPartition readDir topic id).Yields site world
      (.ok (answer, changed)) after) :
    registry.Grows changed := by
  rcases cases_of_yields yields with ⟨rfl, -⟩ | ⟨partition, missing, keyed, -, rfl⟩
  · exact registry.grows_enterTopic topic
  · constructor
    · intro other otherId sender found
      rw [find_register, if_neg, find_enterTopic, found]
      rintro same
      obtain ⟨rfl, rfl⟩ := Prod.mk.inj same
      rw [missing] at found
      cases found
    · intro owned
      refine (owned.enterTopic topic).register ?_ keyed
      rw [find_enterTopic, missing]

/-- The sender it hands out is the one the key leads to. -/
theorem TopicRegistry.find_of_yields {site : Call → Prop} {world after : World}
    {registry changed : TopicRegistry} {topic : String} {id : UInt32} {readDir : Path → List Name}
    (yields : (registry.createPartition readDir topic id).Yields site world
      (.ok (.ok sender, changed)) after) :
    changed.find topic id = some sender := by
  rcases cases_of_yields yields with ⟨rfl, found⟩ | ⟨partition, -, -, same, rfl⟩
  · rw [find_enterTopic, found sender rfl]
  · rw [find_register, if_pos rfl, Except.ok.inj same]
    rfl

/-! ## What holds throughout -/

/-- A task that is gone takes its commands with it. -/
theorem Coherent.clear {ι : Type} {state : Hub ι} (coherent : Coherent state) (sender : Nat)
    (clients : ι → Phase)
    (lost : ∀ client request, state.clients client = .waiting request sender →
      clients client = .idle)
    (kept : ∀ client, (∀ request, state.clients client ≠ .waiting request sender) →
      clients client = state.clients client) :
    Coherent (⟨state.world, state.registry, Function.update state.mailboxes sender [],
      clients⟩ : Hub ι) := by
  -- a connection that is routed or waiting afterwards was so before, and not for this task
  have before {phase : Phase} (client : ι) (now : clients client = phase) (busy : phase ≠ .idle) :
      state.clients client = phase ∧ ∀ request, state.clients client ≠ .waiting request sender := by
    have others (request : Protocol.Request) : state.clients client ≠ .waiting request sender := by
      intro waiting
      rw [lost client request waiting] at now
      exact busy now.symm
    exact ⟨(kept client others).symm.trans now, others⟩
  constructor
  case found =>
    rintro client request target (routed | waiting)
    · exact coherent.found client request target (.inl (before client routed nofun).1)
    · exact coherent.found client request target (.inr (before client waiting nofun).1)
  case mailed =>
    intro client request target queued
    by_cases here : target = sender
    · subst here
      simp at queued
    · simp only [Function.update_of_ne here] at queued
      have waiting := coherent.mailed client request target queued
      refine (kept client fun other same => here ?_).trans waiting
      rw [waiting] at same
      cases same
      rfl
  case posted =>
    intro client request target waiting
    obtain ⟨was, others⟩ := before client waiting nofun
    have differ : target ≠ sender := fun same => others request (same ▸ was)
    simpa only [Function.update_of_ne differ] using coherent.posted client request target was
  case once =>
    intro target
    by_cases here : target = sender
    · subst here
      simp
    · simpa only [Function.update_of_ne here] using coherent.once target

namespace Server
variable {ι : Type} {capacity : Nat} {site : Call → Prop} {state next first final : Server ι}
  {label : Option (Signal ι)} {trace : List (Signal ι)}

/-- A channel holds no more than its capacity, and a task that panicked has
nothing left to answer. -/
structure Task.Sound (capacity : Nat) (task : Task ι) : Prop where
  room : task.queue.length ≤ capacity
  dead : task.dead = true → task.unanswered = []

/-- What every state of a server keeps. -/
structure Sound (capacity : Nat) (state : Server ι) : Prop where
  coherent : Coherent state.hub
  owned : state.registry.Owned
  tasks : ∀ sender, (state.tasks sender).Sound capacity

theorem Sound.start (world : World) {registry : TopicRegistry} (owned : registry.Owned)
    (capacity : Nat) : Sound capacity (start world registry : Server ι) where
  coherent := ⟨by rintro client request sender (routed | waiting) <;> contradiction, nofun,
    nofun, fun _ => .nil⟩
  owned := owned
  tasks := fun _ => ⟨Nat.zero_le capacity, nofun⟩

@[simp] private theorem Stage.phase_eq_waiting (stage : Stage) (request : Protocol.Request)
    (sender : Nat) : stage.phase = .waiting request sender ↔ stage = .waiting request sender := by
  cases stage with
  | replied asked reply => cases reply <;> simp [phase]
  | _ => simp [phase]

@[simp] private theorem Stage.phase_eq_routed (stage : Stage) (request : Protocol.Request)
    (sender : Nat) : stage.phase = .routed request sender ↔ stage = .routed request sender := by
  cases stage with
  | replied asked reply => cases reply <;> simp [phase]
  | _ => simp [phase]

private theorem Stage.lose_eq_self {stage : Stage}
    (others : ∀ request, stage ≠ .waiting request sender) : stage.lose sender = stage := by
  cases stage with
  | waiting request target =>
    have differ : target ≠ sender := fun same => others request (same ▸ rfl)
    exact if_neg differ
  | _ => rfl

theorem Stage.lose_waiting (request : Protocol.Request) (sender : Nat) :
    (Stage.waiting request sender).lose sender = .replied request (.error .replyLost) := if_pos rfl

/-- The registry grows under the server. -/
theorem Sound.register {changed : TopicRegistry} (sound : Sound capacity state) (after : World)
    (grows : state.registry.Grows changed) :
    Sound capacity ({ state with world := after, registry := changed } : Server ι) where
  coherent := sound.coherent.registry after grows.keeps
  owned := grows.owned sound.owned
  tasks := sound.tasks

private theorem Sound.tasks_update {task : Task ι} (sound : Sound capacity state)
    (fine : task.Sound capacity) (other : Nat) :
    (Function.update state.tasks sender task other).Sound capacity := by
  by_cases here : other = sender
  · subst here
    rwa [Function.update_self]
  · rw [Function.update_of_ne here]
    exact sound.tasks other

private theorem Sound.take {command : ι × Protocol.Request} {rest : List (ι × Protocol.Request)}
    (sound : Sound capacity state) (free : (state.tasks sender).current = none)
    (queued : (state.tasks sender).queue = command :: rest) :
    Sound capacity (state.setTask sender
      { state.tasks sender with current := some command, queue := rest }) := by
  have same :
      ({ state.tasks sender with current := some command, queue := rest } : Task ι).unanswered =
        (state.tasks sender).unanswered := by
    simp [Task.unanswered, free, queued]
  constructor
  case coherent =>
    have unchanged : Function.update state.hub.mailboxes sender (state.tasks sender).unanswered =
        state.hub.mailboxes := Function.update_eq_self sender state.hub.mailboxes
    rw [hub_setTask, same, unchanged]
    exact sound.coherent
  case owned => exact sound.owned
  case tasks =>
    have before := (sound.tasks sender).room
    rw [queued, List.length_cons] at before
    exact sound.tasks_update ⟨by simpa using Nat.le_of_succ_le before,
      fun dead => same.trans ((sound.tasks sender).dead dead)⟩

private theorem Sound.panic (sound : Sound capacity state) (after : World) (sender : Nat) :
    Sound capacity ((({ state with world := after } : Server ι).setTask sender ⟨[], none,
      true⟩).lose sender) where
  coherent := by
    have mailboxes := congrArg Hub.mailboxes
      (hub_setTask ({ state with world := after } : Server ι) sender ⟨[], none, true⟩)
    have same : ((({ state with world := after } : Server ι).setTask sender ⟨[], none,
      true⟩).lose sender).hub =
        ⟨after, state.registry, Function.update state.hub.mailboxes sender [],
          fun client => ((state.connections client).stage.lose sender).phase⟩ :=
      congrArg (fun mailboxes => (⟨after, state.registry, mailboxes,
        fun client => ((state.connections client).stage.lose sender).phase⟩ : Hub ι)) mailboxes
    have cleared := sound.coherent.clear sender
      (fun client => ((state.connections client).stage.lose sender).phase)
        (fun client request waiting => ?_) fun client others => ?_
    · rw [same]
      exact cleared.registry after fun _ _ _ found => found
    · have stage : (state.connections client).stage = .waiting request sender := by
        simpa [hub] using waiting
      rw [stage, Stage.lose_waiting]
      rfl
    · rw [Stage.lose_eq_self fun request stage => others request (by simp [hub, stage])]
      rfl
  owned := sound.owned
  tasks := sound.tasks_update ⟨Nat.zero_le capacity, fun _ => rfl⟩

variable [DecidableEq ι]

/-- A connection moves on without touching a task. -/
theorem Sound.move (sound : Sound capacity state) (client : ι) (connection : Connection)
    (before : ∀ request sender, (state.connections client).stage ≠ .waiting request sender)
    (after : ∀ request sender, connection.stage ≠ .waiting request sender)
    (routed : ∀ request sender, connection.stage = .routed request sender →
      state.registry.find request.key.1 request.key.2 = some sender) :
    Sound capacity (state.set client connection) where
  coherent := by
    rw [hub_set]
    refine sound.coherent.advance client (fun request sender => ?_) (fun request sender => ?_)
      fun request sender => ?_
    · simpa [hub] using before request sender
    · simpa using after request sender
    · exact fun same =>
        routed request sender ((connection.stage.phase_eq_routed request sender).mp same)
  owned := sound.owned
  tasks := sound.tasks

private theorem Sound.send {client : ι} {buffer : Bytes} (sound : Sound capacity state)
    (routed : state.connections client = ⟨.routed request sender, buffer⟩)
    (alive : (state.tasks sender).dead = false)
    (room : (state.tasks sender).queue.length < capacity) :
    Sound capacity ((state.setTask sender { state.tasks sender with
      queue := (state.tasks sender).queue ++ [(client, request)] }).set client
        ⟨.waiting request sender, buffer⟩) where
  coherent := by
    have phase : state.hub.clients client = .routed request sender := by simp [hub, routed]
    have sent := sound.coherent.send phase
    have appended : ({ state.tasks sender with queue := (state.tasks sender).queue ++
      [(client, request)] } :
        Task ι).unanswered = state.hub.mailboxes sender ++ [(client, request)] := by
      simp [Task.unanswered, hub]
    rw [hub_set, hub_setTask, appended]
    exact sent
  owned := sound.owned
  tasks := by
    apply sound.tasks_update
    constructor
    · rw [List.length_append, List.length_singleton]
      exact room
    · simp [alive]

private theorem Sound.serve {client : ι} (sound : Sound capacity state) (after : World)
    (current : (state.tasks sender).current = some (client, request))
    (held : state.registry.actors[sender]? = some partition)
    (keyed : result.key = partition.key) (answer : Answer) :
    Sound capacity
      ((({ state with world := after, registry := state.registry.replace sender result } :
      Server ι).setTask sender { state.tasks sender with current := none }).set client
        { state.connections client with stage := .replied request (.ok answer) }) where
  coherent := by
    have queued : state.hub.mailboxes sender = (client, request) :: (state.tasks sender).queue := by
      simp [hub, Task.unanswered, current]
    rw [hub_set, hub_setTask]
    exact (sound.coherent.serve queued answer).registry _ fun _ _ _ found => found
  owned := sound.owned.replace held keyed
  tasks := by
    refine sound.tasks_update ⟨(sound.tasks sender).room, fun dead => ?_⟩
    have empty := (sound.tasks sender).dead dead
    simp [Task.unanswered, current] at empty

/-- A connection with a response to send waits for nobody. -/
theorem Stage.not_waiting {stage : Stage} {given : Response}
    (answer : stage.response = some (request, given)) (asked : Protocol.Request) (sender : Nat) :
    stage ≠ .waiting asked sender := by
  rintro rfl
  cases answer

theorem Step.sound (step : Step capacity site state label next) (sound : Sound capacity state) :
    Sound capacity next := by
  cases step with
  | arrive chunk nonempty ready waits => exact sound.move _ _ (by simp [ready]) nofun nofun
  | leave ready waits => exact sound.move _ _ (by simp [ready]) nofun nofun
  | reject ready refuses => exact sound.move _ _ (by simp [ready]) nofun nofun
  | receive ready gives => exact sound.move _ _ (by simp [ready]) nofun nofun
  | hit asked found =>
    refine sound.move _ _ (by simp [asked]) nofun fun request sender same => ?_
    cases same
    exact found
  | miss asked creates missing => exact sound.move _ _ (by simp [asked]) nofun nofun
  | refuse asked reads failed => exact sound.move _ _ (by simp [asked]) nofun nofun
  | create missed readDir yields =>
    refine (sound.register _ (TopicRegistry.grows_of_yields yields)).move _ _ (by simp [missed])
      nofun fun request sender same => ?_
    cases same
    exact TopicRegistry.find_of_yields yields
  | fail missed readDir yields =>
    exact (sound.register _ (TopicRegistry.grows_of_yields yields)).move _ _
      (by simp [missed]) nofun nofun
  | crash missed readDir yields =>
    exact (sound.register _ (state.registry.grows_enterTopic _)).move _ _
      (by simp [missed]) nofun nofun
  | send routed alive room => exact sound.send routed alive room
  | bounce routed dead => exact sound.move _ _ (by simp [routed]) nofun nofun
  | take free queued => exact sound.take free queued
  | serve current held yields =>
    exact sound.serve _ current held ((Partition.meets_serve _ _).of_yields yields) _
  | panic current held yields => exact sound.panic _ _
  | respond ready answer =>
    exact sound.move _ _ (by rw [ready]; exact Stage.not_waiting answer) nofun nofun
  | sever ready answer part =>
    exact sound.move _ _ (by rw [ready]; exact Stage.not_waiting answer) nofun nofun

theorem Run.sound (run : Run capacity site first trace state) (sound : Sound capacity first) :
    Sound capacity state := by
  induction run with
  | start => exact sound
  | step run step ih => exact step.sound ih

/-- Whatever fails or panics, a channel never holds more than its capacity, no two
tasks have the same key, and a connection waits for a task exactly as long as that
task has its command, once. The task it waits for is the one its key leads to, and
it has not panicked: nobody waits for a task that is gone. -/
theorem commands_neither_lost_nor_duplicated {world : World} {registry : TopicRegistry}
    (run : Run capacity site (Server.start world registry) trace state) (owned : registry.Owned) :
    (∀ sender, (state.tasks sender).queue.length ≤ capacity) ∧
      (state.registry.actors.map Partition.key).Nodup ∧
      ∀ sender, (state.tasks sender).unanswered.Nodup ∧ ∀ client request,
        ((state.connections client).stage = .waiting request sender ↔
          (client, request) ∈ (state.tasks sender).unanswered) ∧
        ((state.connections client).stage = .waiting request sender →
          (state.tasks sender).dead = false ∧
            state.registry.find request.key.1 request.key.2 = some sender) := by
  have sound := run.sound (.start world owned capacity)
  refine ⟨fun sender => (sound.tasks sender).room, sound.owned.nodup,
    fun sender => ⟨sound.coherent.once sender, ?_⟩⟩
  intro client request
  have posted (waiting : (state.connections client).stage = .waiting request sender) :
      (client, request) ∈ (state.tasks sender).unanswered :=
    sound.coherent.posted client request sender (by simp [hub, waiting])
  refine ⟨⟨posted, fun queued => ?_⟩, fun waiting => ⟨Bool.eq_false_iff.mpr fun dead => ?_, ?_⟩⟩
  · simpa [hub] using sound.coherent.mailed client request sender queued
  · have queued := posted waiting
    rw [(sound.tasks sender).dead dead] at queued
    cases queued
  · exact sound.coherent.found client request sender (.inr (by simp [hub, waiting]))

/-- A connection that waits for the task it has just created. -/
theorem commands_neither_lost_nor_duplicated_waiting :
    let request : Protocol.Request := .produce ⟨1, "t", 0, [7]⟩
    ∃ state : Server Bool, Run 1 (fun _ => True) (start blankWorld (.new [] 100 .none))
        [.arrived true request.intoFrame.encode, .received true request] state ∧
      (state.connections true).stage = .waiting request 0 ∧
      (true, request) ∈ (state.tasks 0).unanswered := by
  intro request
  obtain ⟨partition, laid, result, after, tiles, stamp, opened, -⟩ :=
    exists_first_append "t" 0 [] 100 .none [7] (by decide) (by decide) (by decide)
  have run : Run 1 (fun _ => True) (start blankWorld (.new [] 100 .none) :
      Server Bool) [] _ := .start
  have run := run.step (show Step _ _ _ (some (.arrived true request.intoFrame.encode)) _ from
    .arrive _ (by decide) rfl (by decide))
  have run := run.step (show Step _ _ _ (some (.received true request))
    (set _ true ⟨.received request, []⟩) from
      .receive (connections_set_self _ _ _) (by decide +kernel))
  have run := run.step (show Step _ _ _ none (set _ true ⟨.missed request, []⟩) from
    .miss (connections_set_self _ _ _) trivial rfl)
  have run := run.step (show Step _ _ _ none (set _ true ⟨.routed request 0, []⟩) from
    .create (connections_set_self _ _ _) (fun _ => [])
      (Program.yields_of_run (Program.run_bind_of_run opened _)))
  have run := run.step (show Step _ _ _ none (set _ true ⟨.waiting request 0, []⟩) from
    .send (connections_set_self _ _ _) rfl Nat.zero_lt_one)
  obtain ⟨-, -, accounted⟩ :=
    commands_neither_lost_nor_duplicated run (TopicRegistry.owned_new [] 100 .none)
  exact ⟨_, run, rfl, ((accounted 0).2 true request).1.mp rfl⟩

end Server

end Ruka
