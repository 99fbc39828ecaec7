import Ruka.BrokerRuns
import Ruka.Conversations
import Ruka.LogSpans
import Ruka.PartitionOwnership

/-! Many connections at once. A connection handles one request at a time, the
task of a partition takes its commands from a mailbox in the order they were
sent, and a step is what one of them does between two points where it waits.
Any of the steps that are possible may come next. -/
namespace Ruka
open LexicalPaths FilePrograms Protocol Conversations

/-- How far a connection has come with its request. -/
inductive Phase where
  | idle
  | received (request : Protocol.Request)
  | missed (request : Protocol.Request)
  | refused (request : Protocol.Request) (error : RukaError)
  | routed (request : Protocol.Request) (sender : Nat)
  | waiting (request : Protocol.Request) (sender : Nat)
  | replied (request : Protocol.Request) (answer : Answer)

/-- What a step shows of itself: a request that came in, a command a task has
run, a response that went out. -/
inductive Event (ι : Type) where
  | received (client : ι) (request : Protocol.Request)
  | served (client : ι) (request : Protocol.Request) (answer : Answer)
  | responded (client : ι) (request : Protocol.Request) (response : Response)

def Event.client : Event ι → ι
  | .received client _ => client
  | .served client .. => client
  | .responded client .. => client

/-- The process with all its connections. A command in a mailbox stands as the
request it was made from, with the connection that holds its reply channel. -/
structure Hub (ι : Type) where
  world : World
  registry : TopicRegistry
  mailboxes : Nat → List (ι × Protocol.Request)
  clients : ι → Phase

namespace Hub

/-- A broker on a new registry, before any connection said anything. -/
def new (world : World) (baseDir : Path) (maxSegmentBytes : Nat) (syncLevel : SyncLevel) : Hub ι :=
  ⟨world, .new baseDir maxSegmentBytes syncLevel, fun _ => [], fun _ => .idle⟩

variable {ι : Type}

/-- A command goes to the end of the mailbox of its task. -/
def post (state : Hub ι) (sender : Nat) (client : ι) (request : Protocol.Request) : Hub ι :=
  { state with
    mailboxes := Function.update state.mailboxes sender
      (state.mailboxes sender ++ [(client, request)]) }

variable [DecidableEq ι]

def advance (state : Hub ι) (client : ι) (phase : Phase) : Hub ι :=
  { state with clients := Function.update state.clients client phase }

/-- One connection or one task takes a step. A full mailbox only makes a send
wait, so sending is always possible here; calls of the operating system do not
fail and no task panics. -/
inductive Step (state : Hub ι) : Option (Event ι) → Hub ι → Prop
  | receive (client : ι) (request : Protocol.Request) (ready : state.clients client = .idle)
      (decoded : request.Decoded) :
      Step state (some (.received client request)) (state.advance client (.received request))
  | hit (asked : state.clients client = .received request)
      (found : state.registry.find request.key.1 request.key.2 = some sender) :
      Step state none (state.advance client (.routed request sender))
  | miss (asked : state.clients client = .received request) (creates : request.Creates)
      (missing : state.registry.find request.key.1 request.key.2 = none) :
      Step state none (state.advance client (.missed request))
  | refuse (asked : state.clients client = .received request) (reads : ¬ request.Creates)
      (failed : state.registry.getPartition request.key.1 request.key.2 = .error error) :
      Step state none (state.advance client (.refused request error))
  | create {changed : TopicRegistry} {after : World}
      (missed : state.clients client = .missed request) (readDir : Path → List Name)
      (ran : (state.registry.createPartition readDir request.key.1 request.key.2).run state.world =
        (.ok (.ok sender, changed), after)) :
      Step state none
        (({ state with world := after, registry := changed } : Hub ι).advance client
          (.routed request sender))
  | send (routed : state.clients client = .routed request sender) :
      Step state none ((state.post sender client request).advance client (.waiting request sender))
  | serve {after : World} (queued : state.mailboxes sender = (client, request) :: rest)
      (held : state.registry.actors[sender]? = some partition)
      (ran : (partition.serve request.command).run state.world = (.ok (answer, result), after))
      (faultless : ∀ error, answer ≠ .offset (.error (.io error))) :
      Step state (some (.served client request answer))
        ((⟨after, state.registry.replace sender result, Function.update state.mailboxes sender rest,
          state.clients⟩ : Hub ι).advance client (.replied request answer))
  | respond (replied : state.clients client = .replied request answer) :
      Step state (some (.responded client request (request.respond (.ok answer))))
        (state.advance client .idle)
  | decline (refused : state.clients client = .refused request error) :
      Step state (some (.responded client request (.ofError request.correlationId error)))
        (state.advance client .idle)

/-- Steps one after the other, with what they showed. -/
inductive Run (first : Hub ι) : List (Event ι) → Hub ι → Prop
  | start : Run first [] first
  | step (run : Run first trace state) (step : Step state label next) :
      Run first (trace ++ label.toList) next

end Hub

section Clients
variable {ι : Type} {state next first final : Hub ι} {trace : List (Event ι)}
  {label : Option (Event ι)}

/-- What a connection has shown of the request it is at. -/
def Phase.events (client : ι) : Phase → List (Event ι)
  | .idle => []
  | .received request => [.received client request]
  | .missed request => [.received client request]
  | .refused request _ => [.received client request]
  | .routed request _ => [.received client request]
  | .waiting request _ => [.received client request]
  | .replied request answer => [.received client request, .served client request answer]

/-- Whether the answer of the task is there. -/
def Phase.Answered : Phase → Prop
  | .replied .. => True
  | _ => False

/-- What a step does to the connection it is about. -/
inductive Turn (client : ι) : Phase → Option (Event ι) → Phase → Prop
  | receive (decoded : request.Decoded) :
      Turn client .idle (some (.received client request)) (.received request)
  | move (same : Phase.events client after = Phase.events client before)
      (unanswered : ¬ after.Answered) : Turn client before none after
  | serve : Turn client (.waiting request sender) (some (.served client request answer))
      (.replied request answer)
  | respond : Turn client (.replied request answer)
      (some (.responded client request (request.respond (.ok answer)))) .idle
  | decline : Turn client (.refused request error)
      (some (.responded client request (.ofError request.correlationId error))) .idle

private theorem Turn.client {who : ι} (turn : Turn who before (some event) after) :
    event.client = who := by
  cases turn <;> rfl

/-- A request and its response. A task has run its command once in between,
unless the partition to read from was not there. -/
inductive Exchange (client : ι) : List (Event ι) → Prop
  | answered (request : Protocol.Request) (answer : Answer) :
      Exchange client [.received client request, .served client request answer,
        .responded client request (request.respond (.ok answer))]
  | refused (request : Protocol.Request) (error : RukaError) :
      Exchange client [.received client request,
        .responded client request (.ofError request.correlationId error)]

/-- A connection gets one response to each request before the next is read. -/
def Conversed (client : ι) (events : List (Event ι)) (phase : Phase) : Prop :=
  ∃ exchanges : List (List (Event ι)), (∀ exchange ∈ exchanges, Exchange client exchange) ∧
    InOrder id events exchanges (phase.events client)

private theorem Conversed.turn {client : ι} (conversed : Conversed client events before)
    (turn : Turn client before label after) : Conversed client (events ++ label.toList) after := by
  obtain ⟨exchanges, whole, order⟩ := conversed
  have done {exchange : List (Event ι)} (ended : Exchange client exchange) :
      ∀ other ∈ exchanges ++ [exchange], Exchange client other :=
    List.forall_mem_append.mpr ⟨whole, List.forall_mem_singleton.mpr ended⟩
  cases turn with
  | receive decoded => exact ⟨exchanges, whole, order.goesOn rfl⟩
  | move same unanswered => exact ⟨exchanges, whole, order.goesOn (by simp [same])⟩
  | serve => exact ⟨exchanges, whole, order.goesOn rfl⟩
  | @respond request answer => exact ⟨_, done (.answered request answer), order.ends rfl⟩
  | @decline request error => exact ⟨_, done (.refused request error), order.ends rfl⟩

/-- The responses that went out. -/
def responses (trace : List (Event ι)) : List (ι × Protocol.Request × Response) :=
  trace.filterMap fun
    | .responded client request response => some (client, request, response)
    | _ => none

/-- The responses to the commands that were run. -/
def answers (trace : List (Event ι)) : List (ι × Protocol.Request × Response) :=
  trace.filterMap fun
    | .served client request answer => some (client, request, request.respond (.ok answer))
    | _ => none

/-- The offsets a response gives for the payloads of its request. -/
def receipts : Protocol.Request → Response → List (Nat × Content)
  | .produce request, .produce response => [(response.offset, none, some request.payload)]
  | .produceBatch request, .produceBatch response =>
    request.payloads.mapIdx fun place payload => (response.baseOffset + place, none, some payload)
  | _, _ => []

private theorem receipts_ofError (request : Protocol.Request) (correlationId : UInt32)
    (error : RukaError) : receipts request (.ofError correlationId error) = [] := by
  cases request <;> rfl

theorem receipts_respond (request : Protocol.Request) (answer : Answer) :
    receipts request (request.respond (.ok answer)) = acknowledged (request.command, answer) := by
  match request, answer with
  | .produce _, .offset (.ok _) => rfl
  | .produceBatch _, .offset (.ok _) => rfl
  | .fetch _, .offset (.ok _) => rfl
  | .produce _, .offset (.error _) => rfl
  | .produceBatch _, .offset (.error _) => rfl
  | .fetch _, .offset (.error _) => rfl
  | .produce _, .records (.ok _) => rfl
  | .produceBatch _, .records (.ok _) => rfl
  | .fetch _, .records (.ok records) =>
    unfold Protocol.Request.respond
    simp only
    split <;> rfl
  | .produce _, .records (.error _) => rfl
  | .produceBatch _, .records (.error _) => rfl
  | .fetch _, .records (.error _) => rfl
  | .produce _, .record _ => rfl
  | .produceBatch _, .record _ => rfl
  | .fetch _, .record _ => rfl

/-- Every command in a mailbox is there once, for a connection that waits for it,
and every connection talks to the task of its key. -/
structure Coherent (state : Hub ι) : Prop where
  found : ∀ client request sender,
    state.clients client = .routed request sender ∨ state.clients client = .waiting request sender →
      state.registry.find request.key.1 request.key.2 = some sender
  mailed : ∀ client request sender, (client, request) ∈ state.mailboxes sender →
    state.clients client = .waiting request sender
  posted : ∀ client request sender, state.clients client = .waiting request sender →
    (client, request) ∈ state.mailboxes sender
  once : ∀ sender, (state.mailboxes sender).Nodup

namespace Coherent

theorem new (world : World) (baseDir : Path) (maxSegmentBytes : Nat) (syncLevel : SyncLevel) :
    Coherent (Hub.new world baseDir maxSegmentBytes syncLevel : Hub ι) where
  found := by rintro client request sender (routed | waiting) <;> contradiction
  mailed := nofun
  posted := nofun
  once := fun _ => .nil

/-- A registry that keeps its keys may take the place of the old one. -/
theorem registry {changed : TopicRegistry} (coherent : Coherent state) (after : World)
    (keeps : ∀ topic id sender, state.registry.find topic id = some sender →
      changed.find topic id = some sender) :
    Coherent ({ state with world := after, registry := changed } : Hub ι) :=
  ⟨fun client request sender reached => keeps _ _ _ (coherent.found client request sender reached),
    coherent.mailed, coherent.posted, coherent.once⟩

variable [DecidableEq ι]

/-- A connection moves on without touching a mailbox. -/
theorem advance {phase : Phase} (coherent : Coherent state) (client : ι)
    (before : ∀ request sender, state.clients client ≠ .waiting request sender)
    (after : ∀ request sender, phase ≠ .waiting request sender)
    (routed : ∀ request sender, phase = .routed request sender →
      state.registry.find request.key.1 request.key.2 = some sender) :
    Coherent (state.advance client phase) where
  found := by
    intro other request sender reached
    by_cases same : other = client
    · subst same
      simp only [Hub.advance, Function.update_self] at reached
      exact reached.elim (routed request sender) fun waiting =>
        absurd waiting (after request sender)
    · simp only [Hub.advance, Function.update_of_ne same] at reached
      exact coherent.found other request sender reached
  mailed := by
    intro other request sender queued
    have waiting := coherent.mailed other request sender queued
    have differ : other ≠ client := fun same => before request sender (same ▸ waiting)
    exact (Function.update_of_ne differ _ _).trans waiting
  posted := by
    intro other request sender waiting
    by_cases same : other = client
    · subst same
      simp only [Hub.advance, Function.update_self] at waiting
      exact absurd waiting (after request sender)
    · simp only [Hub.advance, Function.update_of_ne same] at waiting
      exact coherent.posted other request sender waiting
  once := coherent.once

theorem send {client : ι} (coherent : Coherent state)
    (routed : state.clients client = .routed request sender) :
    Coherent ((state.post sender client request).advance client (.waiting request sender)) where
  found := by
    intro other asked target reached
    by_cases same : other = client
    · subst same
      simp only [Hub.advance, Hub.post, Function.update_self, reduceCtorEq, Phase.waiting.injEq,
        false_or] at reached
      obtain ⟨rfl, rfl⟩ := reached
      exact coherent.found other request sender (.inl routed)
    · simp only [Hub.advance, Hub.post, Function.update_of_ne same] at reached
      exact coherent.found other asked target reached
  mailed := by
    intro other asked target queued
    have old (before : (other, asked) ∈ state.mailboxes target) :
        Function.update state.clients client (.waiting request sender) other =
          .waiting asked target := by
      have waiting := coherent.mailed other asked target before
      rw [Function.update_of_ne, waiting]
      rintro rfl
      rw [routed] at waiting
      cases waiting
    by_cases here : target = sender
    · subst here
      simp only [Hub.advance, Hub.post, Function.update_self, List.mem_append, List.mem_singleton,
        Prod.mk.injEq] at queued
      rcases queued with before | ⟨rfl, rfl⟩
      · exact old before
      · exact Function.update_self _ _ _
    · simp only [Hub.advance, Hub.post, Function.update_of_ne here] at queued
      exact old queued
  posted := by
    intro other asked target waiting
    by_cases same : other = client
    · subst same
      simp only [Hub.advance, Hub.post, Function.update_self, Phase.waiting.injEq] at waiting
      obtain ⟨rfl, rfl⟩ := waiting
      simp [Hub.advance, Hub.post]
    · simp only [Hub.advance, Hub.post, Function.update_of_ne same] at waiting
      have queued := coherent.posted other asked target waiting
      by_cases here : target = sender
      · subst here
        simp [Hub.advance, Hub.post, queued]
      · simpa only [Hub.advance, Hub.post, Function.update_of_ne here] using queued
  once := by
    intro target
    by_cases here : target = sender
    · subst here
      simp only [Hub.advance, Hub.post, Function.update_self]
      refine List.nodup_append.mpr ⟨coherent.once target, List.nodup_singleton _, ?_⟩
      rintro entry queued other last rfl
      rw [List.mem_singleton.mp last] at queued
      have waiting := coherent.mailed client request target queued
      rw [routed] at waiting
      cases waiting
    · simpa only [Hub.advance, Hub.post, Function.update_of_ne here] using coherent.once target

theorem serve {client : ι} (coherent : Coherent state)
    (queued : state.mailboxes sender = (client, request) :: rest) (answer : Answer) :
    Coherent (({ state with mailboxes := Function.update state.mailboxes sender rest } :
      Hub ι).advance client (.replied request answer)) where
  found := by
    intro other asked target reached
    by_cases same : other = client
    · subst same
      simp [Hub.advance] at reached
    · simp only [Hub.advance, Function.update_of_ne same] at reached
      exact coherent.found other asked target reached
  mailed := by
    have head := coherent.mailed client request sender (by simp [queued])
    have fresh := coherent.once sender
    rw [queued] at fresh
    intro other asked target left
    have before : (other, asked) ∈ state.mailboxes target := by
      by_cases here : target = sender
      · subst here
        simp only [Hub.advance, Function.update_self] at left
        simp [queued, left]
      · simpa only [Hub.advance, Function.update_of_ne here] using left
    have waiting := coherent.mailed other asked target before
    -- the connection just served has nothing else in any mailbox
    have differ : other ≠ client := by
      rintro rfl
      rw [head] at waiting
      cases waiting
      simp only [Hub.advance, Function.update_self] at left
      exact (List.nodup_cons.mp fresh).1 left
    exact (Function.update_of_ne differ _ _).trans waiting
  posted := by
    intro other asked target waiting
    by_cases same : other = client
    · subst same
      simp [Hub.advance] at waiting
    · simp only [Hub.advance, Function.update_of_ne same] at waiting
      have before := coherent.posted other asked target waiting
      by_cases here : target = sender
      · subst here
        rw [queued] at before
        simpa [Hub.advance, same] using before
      · simpa only [Hub.advance, Function.update_of_ne here] using before
  once := by
    intro target
    by_cases here : target = sender
    · subst here
      have fresh := coherent.once target
      rw [queued] at fresh
      simpa only [Hub.advance, Function.update_self] using (List.nodup_cons.mp fresh).2
    · simpa only [Hub.advance, Function.update_of_ne here] using coherent.once target

end Coherent

variable [DecidableEq ι]

private theorem Hub.Step.coherent (step : Hub.Step state label next) (coherent : Coherent state) :
    Coherent next := by
  cases step with
  | receive client request ready decoded =>
    exact coherent.advance client (by simp [ready]) nofun nofun
  | hit asked found =>
    refine coherent.advance _ (by simp [asked]) nofun fun request sender same => ?_
    cases same
    exact found
  | miss asked creates missing => exact coherent.advance _ (by simp [asked]) nofun nofun
  | refuse asked reads failed => exact coherent.advance _ (by simp [asked]) nofun nofun
  | create missed readDir ran =>
    have creates := Creates.of_run ran
    refine (coherent.registry _ fun topic id sender => creates.keeps).advance _ (by simp [missed])
      nofun fun request sender same => ?_
    cases same
    exact creates.answers
  | send routed => exact coherent.send routed
  | serve queued held ran faultless =>
    exact (coherent.serve queued _).registry _ fun _ _ _ found => found
  | respond replied => exact coherent.advance _ (by simp [replied]) nofun nofun
  | decline refused => exact coherent.advance _ (by simp [refused]) nofun nofun

theorem Hub.Run.coherent (run : Hub.Run first trace state) (coherent : Coherent first) :
    Coherent state := by
  induction run with
  | start => exact coherent
  | step run step ih => exact step.coherent ih

private theorem Hub.Step.turn (step : Hub.Step state label next) (coherent : Coherent state) :
    ∃ client phase, Turn client (state.clients client) label phase ∧
      next.clients = Function.update state.clients client phase := by
  cases step with
  | receive client request ready decoded => exact ⟨client, _, ready ▸ .receive decoded, rfl⟩
  | hit asked found => exact ⟨_, _, asked ▸ .move rfl not_false, rfl⟩
  | miss asked creates missing => exact ⟨_, _, asked ▸ .move rfl not_false, rfl⟩
  | refuse asked reads failed => exact ⟨_, _, asked ▸ .move rfl not_false, rfl⟩
  | create missed readDir ran => exact ⟨_, _, missed ▸ .move rfl not_false, rfl⟩
  | send routed => exact ⟨_, _, routed ▸ .move rfl not_false, rfl⟩
  | serve queued held ran faultless =>
    have waiting := coherent.mailed _ _ _ (queued ▸ List.mem_cons_self)
    exact ⟨_, _, waiting ▸ .serve, rfl⟩
  | respond replied => exact ⟨_, _, replied ▸ .respond, rfl⟩
  | decline refused => exact ⟨_, _, refused ▸ .decline, rfl⟩

/-- What one connection saw. -/
def eventsOf (client : ι) (trace : List (Event ι)) : List (Event ι) :=
  trace.filter fun event => event.client = client

private theorem Hub.Step.conversed (step : Hub.Step state label next) (coherent : Coherent state)
    (conversed : ∀ client, Conversed client (eventsOf client trace) (state.clients client))
    (client : ι) : Conversed client (eventsOf client (trace ++ label.toList))
      (next.clients client) := by
  obtain ⟨actor, phase, turn, changed⟩ := step.turn coherent
  rw [changed, eventsOf, List.filter_append]
  by_cases same : client = actor
  · subst same
    have own : label.toList.filter (fun event => event.client = client) = label.toList := by
      cases label with
      | none => rfl
      | some event => simp [turn.client]
    rw [own, Function.update_self]
    exact (conversed client).turn turn
  · have foreign : label.toList.filter (fun event => event.client = client) = [] := by
      cases label with
      | none => rfl
      | some event => simp [turn.client, Ne.symm same]
    rw [foreign, List.append_nil, Function.update_of_ne same]
    exact conversed client

theorem Hub.Run.conversed (run : Hub.Run first trace state) (coherent : Coherent first)
    (idle : ∀ client, first.clients client = .idle) (client : ι) :
    Conversed client (eventsOf client trace) (state.clients client) := by
  induction run generalizing client with
  | start =>
    rw [idle]
    exact ⟨[], nofun, .start id⟩
  | step run step ih => exact step.conversed (run.coherent coherent) ih client

/-- The request a connection is at came in over it. -/
theorem Conversed.received_mem {client : ι} {phase : Phase}
    (conversed : Conversed client (eventsOf client trace) phase)
    (shown : .received client request ∈ phase.events client) :
    .received client request ∈ trace := by
  obtain ⟨exchanges, -, events⟩ := conversed
  have member : .received client request ∈ eventsOf client trace :=
    events ▸ List.mem_append_right _ shown
  exact List.mem_of_mem_filter member

theorem Hub.Run.decoded {client : ι} (run : Hub.Run first trace state) (coherent : Coherent first)
    (received : .received client request ∈ trace) : request.Decoded := by
  induction run with
  | start => cases received
  | step run step ih =>
    rcases List.mem_append.mp received with before | now
    · exact ih before
    · obtain ⟨actor, phase, turn, -⟩ := step.turn (run.coherent coherent)
      generalize Hub.clients _ actor = old at turn
      cases turn with
      | receive decoded =>
        cases List.mem_singleton.mp now
        exact decoded
      | move | serve | respond | decline => simp at now

/-- Every command that was run is answered or still to be answered, once, and
every other response is a refusal. -/
def Balanced (trace : List (Event ι)) (state : Hub ι) : Prop :=
  ∃ pending refused : List (ι × Protocol.Request × Response),
    (∀ entry ∈ refused, receipts entry.2.1 entry.2.2 = []) ∧
      (∀ client request answer, state.clients client = .replied request answer →
        (client, request, request.respond (.ok answer)) ∈ pending) ∧
      (responses trace ++ pending).Perm (answers trace ++ refused)

private theorem Hub.Step.balanced (step : Hub.Step state label next) (coherent : Coherent state)
    (balanced : Balanced trace state) : Balanced (trace ++ label.toList) next := by
  obtain ⟨actor, phase, turn, changed⟩ := step.turn coherent
  obtain ⟨pending, refused, empty, held, perm⟩ := balanced
  unfold Balanced
  rw [changed]
  have others {left : List (ι × Protocol.Request × Response)} (unanswered : ¬ phase.Answered)
      (keep : ∀ client request answer, client ≠ actor →
        state.clients client = .replied request answer →
        (client, request, request.respond (.ok answer)) ∈ left) :
      ∀ client request answer, Function.update state.clients actor phase client =
        .replied request answer → (client, request, request.respond (.ok answer)) ∈ left := by
    intro client request answer replied
    by_cases same : client = actor
    · subst same
      rw [Function.update_self] at replied
      exact absurd (replied ▸ trivial) unanswered
    · rw [Function.update_of_ne same] at replied
      exact keep client request answer same replied
  generalize before : state.clients actor = old at turn
  cases turn with
  | receive decoded =>
    refine ⟨pending, refused, empty,
      others not_false fun client request answer _ => held client request answer, ?_⟩
    simpa [responses, answers] using perm
  | move same unanswered =>
    refine ⟨pending, refused, empty,
      others unanswered fun client request answer _ => held client request answer, ?_⟩
    simpa using perm
  | @serve request sender answer =>
    refine ⟨pending ++ [(actor, request, request.respond (.ok answer))], refused, empty, ?_, ?_⟩
    · intro client asked given replied
      by_cases same : client = actor
      · subst same
        rw [Function.update_self] at replied
        cases replied
        exact List.mem_append_right _ (List.mem_singleton.mpr rfl)
      · rw [Function.update_of_ne same] at replied
        exact List.mem_append_left _ (held client asked given replied)
    · have sides := perm.append_right [(actor, request, request.respond (.ok answer))]
      simp only [responses, answers, Option.toList_some, List.filterMap_append, List.filterMap_cons,
        List.filterMap_nil, List.append_nil, List.append_assoc] at sides ⊢
      exact sides.trans (.append_left _ List.perm_append_comm)
  | @respond request answer =>
    obtain ⟨front, back, rfl⟩ := List.append_of_mem (held actor request answer before)
    refine ⟨front ++ back, refused, empty,
      others not_false fun client asked given differ replied => ?_, ?_⟩
    · have member := held client asked given replied
      simpa [differ] using member
    · simp only [responses, answers, Option.toList_some, List.filterMap_append, List.filterMap_cons,
        List.filterMap_nil, List.append_nil, List.append_assoc, List.singleton_append] at perm ⊢
      exact (List.Perm.append_left _ List.perm_middle.symm).trans perm
  | @decline request error =>
    refine ⟨pending, refused ++ [(actor, request, .ofError request.correlationId error)], ?_,
      others not_false fun client request answer _ => held client request answer, ?_⟩
    · intro entry member
      rcases List.mem_append.mp member with old | new
      · exact empty entry old
      · rw [List.mem_singleton.mp new]
        exact receipts_ofError _ _ _
    · have sides := perm.append_right
        [(actor, request, Response.ofError request.correlationId error)]
      simp only [responses, answers, Option.toList_some, List.filterMap_append, List.filterMap_cons,
        List.filterMap_nil, List.append_nil, List.append_assoc] at sides ⊢
      exact (List.Perm.append_left _ List.perm_append_comm).trans sides

theorem Hub.Run.balanced (run : Hub.Run first trace state) (coherent : Coherent first)
    (idle : ∀ client, first.clients client = .idle) : Balanced trace state := by
  induction run with
  | start =>
    exact ⟨[], [], nofun, fun client request answer replied =>
      absurd replied (by simp [idle]), .refl _⟩
  | step run step ih => exact step.balanced (run.coherent coherent) ih

end Clients

end Ruka
