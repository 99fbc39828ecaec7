import Ruka.ConcurrentClients
import Ruka.LinearHistories
import Ruka.ServerConversations

/-! What the server is when nothing fails: bytes, buffers and the capacity of the
channels make no difference to which request meets which task and what comes back,
and to its clients the whole is one append-only list for each key, on which their
requests take effect one after the other. -/
namespace Ruka
open BigEndian LexicalPaths FilePrograms StreamDecoding Protocol LinearHistories

namespace Server
variable {ι : Type}

/-- What a signal shows without its bytes. -/
def Signal.event : Signal ι → Option (Event ι)
  | .received client request => some (.received client request)
  | .served client request answer => some (.served client request answer)
  | .responded client request response _ => some (.responded client request response)
  | _ => none

/-- Whether the operating system and the counters did what they should. -/
def Signal.Calm : Signal ι → Prop
  | .failed .. => False
  | .crashed _ => False
  | .died _ => False
  | .served _ _ (.offset (.error (.io _))) => False
  | _ => True

/-- No task is gone, so no connection was told that one is. -/
structure Undisturbed (state : Server ι) : Prop where
  alive : ∀ sender, (state.tasks sender).dead = false
  told : ∀ client request failure,
    (state.connections client).stage ≠ .replied request (.error failure)

private theorem Undisturbed.start (world : World) (registry : TopicRegistry) :
    Undisturbed (start world registry : Server ι) :=
  ⟨fun _ => rfl, nofun⟩

variable {capacity : Nat} {state next : Server ι} {label : Option (Signal ι)}
  {trace : List (Signal ι)}

private theorem Undisturbed.setTask {task : Task ι} (undisturbed : Undisturbed state) (sender : Nat)
    (alive : task.dead = false) : Undisturbed (state.setTask sender task) := by
  refine ⟨fun other => ?_, undisturbed.told⟩
  by_cases here : other = sender
  · subst here
    simp [Server.setTask, alive]
  · simpa [Server.setTask, here] using undisturbed.alive other

variable [DecidableEq ι]

private theorem Undisturbed.set (undisturbed : Undisturbed state) (client : ι)
    (connection : Connection)
    (told : ∀ request failure, connection.stage ≠ .replied request (.error failure)) :
    Undisturbed (state.set client connection) := by
  refine ⟨undisturbed.alive, fun other => ?_⟩
  by_cases same : other = client
  · subst same
    rw [connections_set_self]
    exact told
  · rw [connections_set_ne state connection same]
    exact undisturbed.told other

private theorem Step.undisturbed {site : Call → Prop} (step : Step capacity site state label next)
    (calm : ∀ signal, label = some signal → signal.Calm) (undisturbed : Undisturbed state) :
    Undisturbed next := by
  cases step with
  | arrive | leave | reject | receive | hit | miss | refuse | respond | sever =>
    exact undisturbed.set _ _ (by simp)
  | create missed readDir yields =>
    apply Undisturbed.set
    · exact ⟨undisturbed.alive, undisturbed.told⟩
    · simp
  | fail missed readDir yields => exact (calm _ rfl).elim
  | crash missed readDir yields => exact (calm _ rfl).elim
  | send routed alive room =>
    apply Undisturbed.set
    · exact undisturbed.setTask _ alive
    · simp
  | bounce routed dead =>
    rw [undisturbed.alive] at dead
    cases dead
  | take free queued => exact undisturbed.setTask _ (undisturbed.alive _)
  | serve current held yields =>
    apply Undisturbed.set
    · apply Undisturbed.setTask
      · exact ⟨undisturbed.alive, undisturbed.told⟩
      · exact undisturbed.alive _
    · simp
  | panic current held yields => exact (calm _ rfl).elim

/-- Sending the response is the same step for the hub, however much of it gets
through. -/
theorem Undisturbed.step_of_response {client : ι} {stage later : Stage} {buffer : Bytes}
    {given : Response} (undisturbed : Undisturbed state)
    (ready : state.connections client = ⟨stage, buffer⟩)
    (answer : stage.response = some (request, given)) (idle : later.phase = .idle) :
    Hub.Step state.hub (some (.responded client request given))
      (state.set client ⟨later, buffer⟩).hub := by
  have phase : state.hub.clients client = stage.phase := by simp only [hub, ready]
  rw [hub_set, idle]
  cases stage with
  | refused asked error =>
    cases answer
    exact .decline phase
  | replied asked reply =>
    cases reply with
    | error failure => exact absurd (by rw [ready]) (undisturbed.told client asked failure)
    | ok reply =>
      cases answer
      exact .respond phase
  | _ => cases answer

/-- A step of the server is a step of the hub, or one it does not see. -/
theorem Step.simulated (step : Step capacity (fun _ => False) state label next)
    (calm : ∀ signal, label = some signal → signal.Calm) (undisturbed : Undisturbed state) :
    Hub.Step state.hub (label.bind Signal.event) next.hub ∨ label.bind Signal.event = none ∧
    next.hub = state.hub := by
  have phase {client : ι} {stage : Stage} {buffer : Bytes}
      (stands : state.connections client = ⟨stage, buffer⟩) :
      state.hub.clients client = stage.phase := by
    simp only [hub, stands]
  have ran {α : Type} {program : Program α} {outcome : Except Halt α} {after : World}
      (yields : program.Yields (fun _ => False) state.world outcome after) :
      program.run state.world = (outcome, after) := yields.run_eq fun _ => id
  cases step with
  | arrive chunk nonempty ready waits => exact .inr ⟨rfl, hub_set_eq _ _ (by rw [ready])⟩
  | leave ready waits => exact .inr ⟨rfl, hub_set_eq _ _ (by rw [ready]; rfl)⟩
  | reject ready refuses => exact .inr ⟨rfl, hub_set_eq _ _ (by rw [ready]; rfl)⟩
  | receive ready gives =>
    rw [hub_set]
    exact .inl (.receive _ _ (phase ready) (decoded_of_nextRequest gives))
  | hit asked found =>
    rw [hub_set]
    exact .inl (.hit (phase asked) found)
  | miss asked creates missing =>
    rw [hub_set]
    exact .inl (.miss (phase asked) creates missing)
  | refuse asked reads failed =>
    rw [hub_set]
    exact .inl (.refuse (phase asked) reads failed)
  | create missed readDir yields =>
    rw [hub_set]
    exact .inl (.create (phase missed) readDir (ran yields))
  | fail missed readDir yields => exact (calm _ rfl).elim
  | crash missed readDir yields => exact (calm _ rfl).elim
  | @send client request sender buffer routed alive room =>
    have appended : ({ state.tasks sender with queue := (state.tasks sender).queue ++
      [(client, request)] } :
        Task ι).unanswered = state.hub.mailboxes sender ++ [(client, request)] := by
      simp [Task.unanswered, hub]
    rw [hub_set, hub_setTask, appended]
    exact .inl (.send (phase routed))
  | bounce routed dead =>
    rw [undisturbed.alive] at dead
    cases dead
  | @take sender command rest free queued =>
    have same : ({ state.tasks sender with current := some command, queue := rest } :
      Task ι).unanswered = state.hub.mailboxes sender := by
      simp [Task.unanswered, hub, free, queued]
    refine .inr ⟨rfl, ?_⟩
    rw [hub_setTask, same, Function.update_eq_self]
  | @serve sender client request partition answer result after current held yields =>
    have queued : state.hub.mailboxes sender = (client, request) :: (state.tasks sender).queue := by
      simp [hub, Task.unanswered, current]
    rw [hub_set, hub_setTask]
    refine .inl (.serve queued held (ran yields) fun error same => ?_)
    subst same
    exact calm _ rfl
  | panic current held yields => exact (calm _ rfl).elim
  | respond ready answer => exact .inl (undisturbed.step_of_response ready answer rfl)
  | sever ready answer part => exact .inl (undisturbed.step_of_response ready answer rfl)

/-- A run in which nothing fails is a run of the hub. -/
theorem Run.simulated {first : Server ι} (run : Run capacity (fun _ => False) first trace state)
    (calm : ∀ signal ∈ trace, signal.Calm) (undisturbed : Undisturbed first) :
    Hub.Run first.hub (trace.filterMap Signal.event) state.hub ∧ Undisturbed state := by
  induction run with
  | start => exact ⟨.start, undisturbed⟩
  | @step trace state label next run step ih =>
    obtain ⟨earlier, before⟩ := ih fun signal member => calm signal (List.mem_append_left _ member)
    have now (signal : Signal ι) (shown : label = some signal) : signal.Calm :=
      calm signal (List.mem_append_right _ (by simp [shown]))
    refine ⟨?_, step.undisturbed now before⟩
    have shown : label.toList.filterMap Signal.event = (label.bind Signal.event).toList := by
      cases label with
      | none => rfl
      | some signal => cases signal <;> rfl
    rw [List.filterMap_append, shown]
    rcases step.simulated now before with moved | ⟨hidden, same⟩
    · exact earlier.step moved
    · rw [hidden, same, Option.toList_none, List.append_nil]
      exact earlier

end Server

/-! ## One list for each key -/

/-- What the server is for: a request on one append-only list for each key. A
fetch from a list with nothing in it may also be told that there is none. -/
inductive StoreStep (limit : Nat) (logs : String × UInt32 → List Content) :
    Protocol.Request → Response → (String × UInt32 → List Content) → Prop
  | served (taken : LogStep limit (logs request.key) request.command answer grown) :
      StoreStep limit logs request (request.respond (.ok answer))
        (Function.update logs request.key grown)
  | absent (empty : logs request.key = []) (reads : ¬ request.Creates) :
      StoreStep limit logs request
        (.ofError request.correlationId (.partitionNotFound request.key.1 request.key.2)) logs

/-- How far a connection has come with its request, for its client. -/
def Phase.slot : Phase → Slot Protocol.Request Response
  | .idle => .free
  | .received request => .invoked request
  | .missed request => .invoked request
  | .refused request error => .effective request (.ofError request.correlationId error)
  | .routed request _ => .invoked request
  | .waiting request _ => .invoked request
  | .replied request answer => .effective request (request.respond (.ok answer))

/-- What a client sees of an event. -/
def Event.mark : Event ι → Option (Mark ι Protocol.Request Response)
  | .received client request => some (.invoked client request)
  | .served .. => none
  | .responded client request response => some (.responded client request response)

section Hub
variable {ι : Type} [DecidableEq ι] {keys : String × UInt32 → Prop} {state next : Hub ι}
  {trace : List (Event ι)} {label : Option (Event ι)} {logs : String × UInt32 → List Content}
  {order : List (ι × Protocol.Request × Response)}

/-- The lists behind a hub, with the order of the requests that made them. -/
structure Explained (limit : Nat) (keys : String × UInt32 → Prop) (trace : List (Event ι))
    (state : Hub ι) (order : List (ι × Protocol.Request × Response))
    (logs : String × UInt32 → List Content) : Prop where
  committed : Committed (StoreStep limit) (fun _ => []) (trace.filterMap Event.mark)
    (fun client => (state.clients client).slot) order logs
  housed : Housed keys state.world state.registry
  logged : Logged state.world state.registry logs

private theorem slots_advance (state : Hub ι) (client : ι) (phase : Phase) :
    (fun other => ((state.advance client phase).clients other).slot) =
      Function.update (fun other => (state.clients other).slot) client phase.slot := by
  funext other
  by_cases same : other = client
  · subst same
    simp [Hub.advance]
  · simp [Hub.advance, same]

/-- A move that its client cannot see. -/
theorem slots_advance_eq {client : ι} {phase : Phase}
    (same : phase.slot = (state.clients client).slot) :
    (fun other => ((state.advance client phase).clients other).slot) = fun other =>
      (state.clients other).slot := by
  rw [slots_advance, same]
  exact Function.update_eq_self client _

private theorem Hub.Step.explained (step : Hub.Step state label next)
    (explained : Explained state.registry.maxSegmentBytes keys trace state order logs)
    (coherent : Coherent state) (apart : Apart keys state.registry.baseDir)
    (asked : ∀ client request, .received client request ∈ (state.clients client).events client →
      keys request.key ∧ request.command.Small) :
    ∃ order logs, Explained state.registry.maxSegmentBytes keys (trace ++ label.toList) next
      order logs := by
  obtain ⟨committed, housed, logged⟩ := explained
  -- a step that shows nothing to its client and changes no list
  have hidden {client : ι} {phase : Phase} (moved : Hub ι)
      (same : phase.slot = (state.clients client).slot) (clients : moved.clients = state.clients)
      (housed : Housed keys moved.world moved.registry)
      (logged : Logged moved.world moved.registry logs) :
      ∃ order logs, Explained state.registry.maxSegmentBytes keys (trace ++ [])
        (moved.advance client phase) order logs := by
    refine ⟨order, logs, ?_, housed, logged⟩
    rw [List.append_nil, slots_advance_eq (by rw [same, clients]), clients]
    exact committed
  cases step with
  | receive client request ready decoded =>
    refine ⟨order, logs, ?_, housed, logged⟩
    rw [slots_advance, Option.toList_some, List.filterMap_append]
    exact committed.invoke (by rw [ready]; rfl) request
  | hit received found => exact hidden _ (by rw [received]; rfl) rfl housed logged
  | miss received creates missing => exact hidden _ (by rw [received]; rfl) rfl housed logged
  | @refuse client request error received reads failed =>
    have missing : state.registry.find request.key.1 request.key.2 = none ∧
        error = .partitionNotFound request.key.1 request.key.2 := by
      unfold TopicRegistry.getPartition at failed
      split at failed
      · cases failed
      · rename_i missing
        cases failed
        exact ⟨missing, rfl⟩
    obtain ⟨missing, rfl⟩ := missing
    refine ⟨order ++ [(client, request,
      .ofError request.correlationId (.partitionNotFound request.key.1 request.key.2))], logs, ?_,
      housed, logged⟩
    rw [slots_advance, Option.toList_none, List.append_nil]
    exact committed.commit (by rw [received]; rfl) (.absent (logged.empty _ _ missing) reads)
  | create missed readDir ran =>
    have known := (asked _ _ (by rw [missed]; exact List.mem_singleton.mpr rfl)).1
    have entered := (TopicRegistry.createPartition_ensures readDir fun missing =>
      housed.unwritten _ _ ⟨known, missing⟩).of_run ran
    cases entered with
    | present found => exact hidden _ (by rw [missed]; rfl) rfl housed logged
    | created missing fresh =>
      exact hidden _ (by rw [missed]; rfl) rfl (housed.register apart known missing fresh)
        (logged.register housed apart known missing fresh)
  | send routed => exact hidden (state.post _ _ _) (by rw [routed]; rfl) rfl housed logged
  | @serve sender client request rest partition answer result after queued held ran faultless =>
    have waiting := coherent.mailed client request sender (queued ▸ List.mem_cons_self)
    have small := (asked client request (by rw [waiting]; exact List.mem_singleton.mpr rfl)).2
    obtain ⟨owner, there, keyed⟩ :=
      housed.owned.getElem? (coherent.found client request sender (.inr waiting))
    obtain rfl : partition = owner := Option.some.inj (held.symm.trans there)
    have keyed : partition.key = request.key := keyed
    obtain ⟨tiles, lives, listed⟩ := logged.lives partition (List.mem_of_getElem? held)
    rcases (lives.serve_ensures request.command).of_run ran with
      ⟨error, failed⟩ | ⟨others, same, later, outside, taken⟩
    · exact absurd failed (faultless error)
    · rw [listed, keyed] at taken
      refine ⟨order ++ [(client, request, request.respond (.ok answer))], _, ?_,
        housed.serve apart held same (later small) outside,
        logged.serve housed apart held same (later small) outside⟩
      have silent : (trace ++ [Event.served client request answer]).filterMap Event.mark =
          trace.filterMap Event.mark := by
        simp [Event.mark]
      rw [slots_advance, Option.toList_some, silent, keyed]
      exact committed.commit (by rw [waiting]; rfl) (.served taken)
  | respond replied =>
    refine ⟨order, logs, ?_, housed, logged⟩
    rw [slots_advance, Option.toList_some, List.filterMap_append]
    exact committed.respond (by rw [replied]; rfl)
  | decline refused =>
    refine ⟨order, logs, ?_, housed, logged⟩
    rw [slots_advance, Option.toList_some, List.filterMap_append]
    exact committed.respond (by rw [refused]; rfl)

/-- Every run of the hub is explained by an order of its requests. -/
theorem Hub.Run.explained {start : World} {baseDir : Path} {maxSegmentBytes : Nat}
    {syncLevel : SyncLevel}
    (run : Hub.Run (.new start baseDir maxSegmentBytes syncLevel) trace state)
    (unwritten : Unwritten keys start baseDir) (apart : Apart keys baseDir)
    (known : ∀ client request, .received client request ∈ trace → keys request.key) :
    ∃ order logs, Explained maxSegmentBytes keys trace state order logs := by
  have fresh := Coherent.new (ι := ι) start baseDir maxSegmentBytes syncLevel
  induction run with
  | start =>
    exact ⟨[], fun _ => [], .start, .new baseDir maxSegmentBytes syncLevel unwritten, nofun,
      fun _ _ _ => rfl⟩
  | @step trace state label next run step ih =>
    obtain ⟨order, logs, explained⟩ := ih fun client request member =>
      known client request (List.mem_append_left _ member)
    obtain rfl : state.registry.maxSegmentBytes = maxSegmentBytes :=
      (Prod.mk.inj (Prod.mk.inj run.site).2).1
    refine step.explained explained (run.coherent fresh) (run.baseDir ▸ apart)
      fun client request shown => ?_
    have member := (run.conversed fresh (fun _ => rfl) client).received_mem shown
    exact ⟨known client request (List.mem_append_left _ member),
      (run.decoded fresh member).small_command⟩

end Hub

namespace Server
variable {ι : Type} {capacity : Nat} {state : Server ι} {trace : List (Signal ι)}

/-- What a client sees of a signal, if it does not count bytes. -/
def Signal.mark : Signal ι → Option (Mark ι Protocol.Request Response)
  | .received client request => some (.invoked client request)
  | .responded client request response _ => some (.responded client request response)
  | _ => none

variable [DecidableEq ι]

/-- A client produces a first message over a channel for one command. -/
def firstProduce : List (Signal Bool) :=
  let request : Protocol.Request := .produce ⟨1, "t", 0, [7]⟩
  let response : Response := .produce ⟨1, "t", 0, 0⟩
  [.arrived true request.intoFrame.encode, .received true request,
    .served true request (.offset (.ok 0)),
    .responded true request response response.intoFrame.encode]

private theorem exists_firstProduce :
    ∃ state, Run 1 (fun _ => False) (start blankWorld (.new [] 100 .none)) firstProduce state := by
  let request : Protocol.Request := .produce ⟨1, "t", 0, [7]⟩
  obtain ⟨partition, laid, result, after, tiles, stamp, opened, served, -⟩ :=
    exists_first_append "t" 0 [] 100 .none [7] (by decide) (by decide) (by decide)
  have run : Run 1 (fun _ => False) (start blankWorld (.new [] 100 .none) :
      Server Bool) [] _ := .start
  have run := run.step (show Step _ _ _ (some (.arrived true request.intoFrame.encode)) _ from
    .arrive _ (by decide) rfl (by decide))
  have run := run.step (show Step _ _ _ (some (.received true request))
    (set _ true ⟨.received request, []⟩) from
      .receive (connections_set_self _ _ _) (by decide +kernel))
  have run := run.step (show Step _ _ _ none (set _ true ⟨.missed request, []⟩) from
    .miss (connections_set_self _ _ _) trivial rfl)
  have run := run.step (show Step _ _ _ none (set _ true ⟨.routed request 0, []⟩) from
    .create (connections_set_self _ _ _) (fun _ => [])
      (Program.yields_of_run (Program.run_bind_of_run opened _)))
  have run := run.step (show Step _ _ _ none (set _ true ⟨.waiting request 0, []⟩) from
    .send (connections_set_self _ _ _) rfl Nat.zero_lt_one)
  have run := run.step (show Step _ _ _ none
    (setTask _ 0 ⟨[], some (true, request), false⟩) from .take rfl rfl)
  have run := run.step (show Step _ _ _ (some (.served true request (.offset (.ok 0))))
    (set _ true ⟨.replied request (.ok (.offset (.ok 0))), []⟩) from
      .serve (show (tasks _ 0).current = some (true, request) from rfl) rfl
        (Program.yields_of_run served))
  exact ⟨_, run.step (.respond (connections_set_self _ _ _) rfl)⟩

private theorem calm_firstProduce : ∀ signal ∈ firstProduce, signal.Calm := by
  simp [firstProduce, Signal.Calm]

/-- As long as nothing fails, the bytes on the sockets, the way they were cut and
the capacity of the channels make no difference: from whatever disk and registry the
server starts, what happens is a run of the hub, with the same requests, commands and
responses in the same order. -/
theorem calm_server_refines_hub {world : World} {registry : TopicRegistry}
    (run : Run capacity (fun _ => False) (start world registry) trace state)
    (calm : ∀ signal ∈ trace, signal.Calm) :
    Hub.Run ⟨world, registry, fun _ => [], fun _ => .idle⟩
      (trace.filterMap Signal.event) state.hub :=
  (run.simulated calm (.start world registry)).1

theorem calm_server_refines_hub_produce :
    ∃ state, Run 1 (fun _ => False) (start blankWorld (.new [] 100 .none)) firstProduce state ∧
      Hub.Run ⟨blankWorld, .new [] 100 .none, fun _ => [], fun _ => .idle⟩
        (firstProduce.filterMap Signal.event) state.hub := by
  obtain ⟨state, run⟩ := exists_firstProduce
  exact ⟨state, run, calm_server_refines_hub run calm_firstProduce⟩

end Server

end Ruka
