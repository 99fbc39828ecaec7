import Ruka.Conversations
import Ruka.ServerSteps

/-! What one client sees of the server. However its bytes were cut on their way
and whatever happens to tasks, files and other connections, its requests are
taken in the order they were sent, each is answered before the next is taken, and
the bytes that come back are the frames of the answers, one behind the other. -/
namespace Ruka
open BigEndian LexicalPaths FilePrograms StreamDecoding Protocol Conversations

/-- The requests these bytes start with, up to the first that is none. -/
def requestsIn (input : Bytes) : List Protocol.Request := (poll nextRequest input).items

namespace Server
variable {ι : Type}

/-- What a connection has shown of the request it is at. -/
def Stage.signals (client : ι) : Stage → List (Signal ι)
  | .reading => []
  | .received request => [.received client request]
  | .missed request => [.received client request]
  | .refused request _ => [.received client request]
  | .routed request _ => [.received client request]
  | .waiting request _ => [.received client request]
  | .replied request (.ok answer) => [.received client request, .served client request answer]
  | .replied request (.error _) => [.received client request]
  | .closed => []

private theorem Stage.signals_lose (client : ι) (stage : Stage) (sender : Nat) :
    (stage.lose sender).signals client = stage.signals client := by
  cases stage with
  | waiting request target =>
    simp only [lose]
    split <;> rfl
  | _ => rfl

private theorem Stage.lose_eq_closed {stage : Stage} :
    stage.lose sender = .closed ↔ stage = .closed := by
  cases stage with
  | waiting request target =>
    simp only [lose]
    split <;> simp
  | _ => simp [lose]

/-- How a request was answered. -/
inductive Verdict where
  | refused (error : RukaError)
  | replied (reply : Except Undelivered Answer)

/-- A request, how it was answered, and how much of the answer was written. -/
structure Exchange where
  request : Protocol.Request
  verdict : Verdict
  sent : Bytes

namespace Exchange

def response (exchange : Exchange) : Response :=
  match exchange.verdict with
  | .refused error => .ofError exchange.request.correlationId error
  | .replied reply => exchange.request.respond reply

/-- The task has run the command once if it replied, and not otherwise. -/
def signals (client : ι) (exchange : Exchange) : List (Signal ι) :=
  match exchange.verdict with
  | .replied (.ok answer) =>
    [.received client exchange.request, .served client exchange.request answer,
      .responded client exchange.request exchange.response exchange.sent]
  | _ =>
    [.received client exchange.request,
      .responded client exchange.request exchange.response exchange.sent]

/-- The answer was written to its end. -/
def Whole (exchange : Exchange) : Prop := exchange.sent = exchange.response.intoFrame.encode

private theorem correlationId_response (exchange : Exchange) :
    exchange.response.correlationId = exchange.request.correlationId := by
  unfold response
  split
  · rfl
  · exact exchange.request.correlationId_respond _

/-- A response completes the exchange its connection is at. -/
theorem exists_of_response {stage : Stage} {asked : Protocol.Request} {given : Response}
    (answer : stage.response = some (asked, given)) (written : Bytes) (client : ι) :
    ∃ exchange : Exchange, exchange.response = given ∧ exchange.sent = written ∧
      exchange.signals client = stage.signals client ++
        [.responded client asked given written] := by
  cases stage with
  | refused asked error =>
    cases answer
    exact ⟨⟨asked, .refused error, written⟩, rfl, rfl, rfl⟩
  | replied asked reply =>
    cases answer
    refine ⟨⟨asked, .replied reply, written⟩, rfl, rfl, ?_⟩
    cases reply <;> rfl
  | _ => cases answer

end Exchange

/-- The client sent no more, or nothing that can be read. -/
def Ended (client : ι) (trace : List (Signal ι)) : Prop :=
  .left client ∈ trace ∨ .rejected client ∈ trace

/-- Where a connection stands: it runs, or it has been closed for one of four
reasons. Only a write that failed leaves an answer short, and only a panic while
a partition was opened leaves a request without one. -/
inductive Standing (client : ι) (trace : List (Signal ι)) :
    Connection → List Exchange → List (Signal ι) → Prop
  | running (unclosed : connection.stage ≠ .closed) (whole : ∀ exchange ∈ exchanges, exchange.Whole)
      (goesOn : ¬ Ended client trace) :
      Standing client trace connection exchanges (connection.stage.signals client)
  | ended (done : Ended client trace) (whole : ∀ exchange ∈ exchanges, exchange.Whole)
      (dry : requestsIn buffer = []) : Standing client trace ⟨.closed, buffer⟩ exchanges []
  | severed (whole : ∀ exchange ∈ exchanges, exchange.Whole)
      (part : last.sent <+: last.response.intoFrame.encode) (goesOn : ¬ Ended client trace) :
      Standing client trace ⟨.closed, buffer⟩ (exchanges ++ [last]) []
  | crashed (panicked : .crashed client ∈ trace) (whole : ∀ exchange ∈ exchanges, exchange.Whole)
      (request : Protocol.Request) (goesOn : ¬ Ended client trace) :
      Standing client trace ⟨.closed, buffer⟩ exchanges [.received client request]

variable {client : ι} {trace : List (Signal ι)} {label : Option (Signal ι)}
  {before after : Connection} {exchanges : List Exchange} {pending : List (Signal ι)}

private theorem Ended.mono (ended : Ended client trace) (more : List (Signal ι)) :
    Ended client (trace ++ more) :=
  ended.imp (List.mem_append_left more) (List.mem_append_left more)

private theorem not_ended_append (goesOn : ¬ Ended client trace) {signal : Signal ι}
    (left : signal ≠ .left client) (rejected : signal ≠ .rejected client) :
    ¬ Ended client (trace ++ [signal]) := by
  rintro (gone | refused)
  · rcases List.mem_append.mp gone with earlier | now
    · exact goesOn (.inl earlier)
    · exact left (List.mem_singleton.mp now).symm
  · rcases List.mem_append.mp refused with earlier | now
    · exact goesOn (.inr earlier)
    · exact rejected (List.mem_singleton.mp now).symm

/-- A connection that has not been closed runs. -/
theorem Standing.of_running (standing : Standing client trace before exchanges pending)
    (unclosed : before.stage ≠ .closed) : (∀ exchange ∈ exchanges, exchange.Whole) ∧
      pending = before.stage.signals client ∧ ¬ Ended client trace := by
  cases standing with
  | running _ whole goesOn => exact ⟨whole, rfl, goesOn⟩
  | ended | severed | crashed => exact absurd rfl unclosed

/-- A move that shows nothing changes nothing. -/
theorem Standing.move (standing : Standing client trace before exchanges pending)
    (more : List (Signal ι)) (quiet : ¬ Ended client trace → ¬ Ended client (trace ++ more))
    (buffer : after.buffer = before.buffer)
    (same : after.stage.signals client = before.stage.signals client)
    (both : after.stage = .closed ↔ before.stage = .closed) :
    Standing client (trace ++ more) after exchanges pending := by
  cases standing with
  | running unclosed whole goesOn =>
    rw [← same]
    exact .running (fun closed => unclosed (both.mp closed)) whole (quiet goesOn)
  | ended done whole dry =>
    obtain ⟨stage, bytes⟩ := after
    cases both.mpr rfl
    cases buffer
    exact .ended (done.mono more) whole dry
  | severed whole part goesOn =>
    obtain ⟨stage, bytes⟩ := after
    cases both.mpr rfl
    exact .severed whole part (quiet goesOn)
  | crashed panicked whole request goesOn =>
    obtain ⟨stage, bytes⟩ := after
    cases both.mpr rfl
    exact .crashed (List.mem_append_left more panicked) whole request (quiet goesOn)

variable [DecidableEq ι]

namespace Signal

/-- The bytes a client sent. -/
def input (client : ι) : Signal ι → Bytes
  | .arrived sender chunk => if sender = client then chunk else []
  | _ => []

/-- The bytes a client got back. -/
def output (client : ι) : Signal ι → Bytes
  | .responded receiver _ _ sent => if receiver = client then sent else []
  | _ => []

/-- The requests that were taken from a client. -/
def asked (client : ι) : Signal ι → List Protocol.Request
  | .received sender request => if sender = client then [request] else []
  | _ => []

/-- What concerns the requests of a client: that they came in, that a task ran
them, that they were answered. -/
def talk (client : ι) : Signal ι → List (Signal ι)
  | .received sender request => if sender = client then [.received sender request] else []
  | .served sender request answer => if sender = client then [.served sender request answer] else []
  | .responded sender request response sent =>
    if sender = client then [.responded sender request response sent] else []
  | _ => []

/-- The signal is about another connection, or about none of its bytes. -/
structure Silent (client : ι) (signal : Signal ι) : Prop where
  input : signal.input client = []
  asked : signal.asked client = []
  talk : signal.talk client = []
  left : signal ≠ .left client
  rejected : signal ≠ .rejected client

end Signal

/-- One exchange after the other, and every byte accounted for. -/
structure Dialogue (client : ι) (trace : List (Signal ι)) (connection : Connection)
    (exchanges : List Exchange) (pending : List (Signal ι)) : Prop where
  order : InOrder (Exchange.signals client) (trace.flatMap (Signal.talk client)) exchanges pending
  parsed : poll nextRequest (trace.flatMap (Signal.input client)) =
    (poll nextRequest connection.buffer).after (trace.flatMap (Signal.asked client))
  standing : Standing client trace connection exchanges pending

/-- What a step is for one connection. -/
inductive Turn (client : ι) : Connection → Option (Signal ι) → Connection → Prop
  | move (silent : ∀ signal, shown = some signal → signal.Silent client)
      (buffer : new.buffer = old.buffer)
      (same : new.stage.signals client = old.stage.signals client)
      (both : new.stage = .closed ↔ old.stage = .closed) : Turn client old shown new
  | arrive (chunk : Bytes) (waits : nextRequest buffer = some (.ok none, buffer)) :
      Turn client ⟨.reading, buffer⟩ (some (.arrived client chunk)) ⟨.reading, buffer ++ chunk⟩
  | leave (waits : nextRequest buffer = some (.ok none, buffer)) :
      Turn client ⟨.reading, buffer⟩ (some (.left client)) ⟨.closed, buffer⟩
  | reject (refuses : nextRequest buffer = some (.error error, rest)) :
      Turn client ⟨.reading, buffer⟩ (some (.rejected client)) ⟨.closed, buffer⟩
  | receive (gives : nextRequest buffer = some (.ok (some request), rest)) :
      Turn client ⟨.reading, buffer⟩ (some (.received client request)) ⟨.received request, rest⟩
  | crash (request : Protocol.Request) (buffer : Bytes) :
      Turn client ⟨.missed request, buffer⟩ (some (.crashed client)) ⟨.closed, buffer⟩
  | serve (request : Protocol.Request) (sender : Nat) (answer : Answer) (buffer : Bytes) :
      Turn client ⟨.waiting request sender, buffer⟩ (some (.served client request answer))
        ⟨.replied request (.ok answer), buffer⟩
  | respond (answer : stage.response = some (request, given)) (buffer : Bytes) :
      Turn client ⟨stage, buffer⟩ (some (.responded client request given given.intoFrame.encode))
        ⟨.reading, buffer⟩
  | sever (answer : stage.response = some (request, given)) (buffer : Bytes)
      (part : sent <+: given.intoFrame.encode) :
      Turn client ⟨stage, buffer⟩ (some (.responded client request given sent)) ⟨.closed, buffer⟩

private theorem Dialogue.goesOn (dialogue : Dialogue client trace before exchanges pending)
    {signal : Signal ι} {later : List (Signal ι)} (grown : later = pending ++ signal.talk client) :
    InOrder (Exchange.signals client) ((trace ++ [signal]).flatMap (Signal.talk client))
      exchanges later := by
  rw [List.flatMap_append, List.flatMap_singleton]
  exact dialogue.order.goesOn grown

private theorem Dialogue.move (dialogue : Dialogue client trace before exchanges pending)
    (silent : ∀ signal, label = some signal → signal.Silent client)
    (buffer : after.buffer = before.buffer)
    (same : after.stage.signals client = before.stage.signals client)
    (both : after.stage = .closed ↔ before.stage = .closed) :
    Dialogue client (trace ++ label.toList) after exchanges pending := by
  cases label with
  | none =>
    refine ⟨?_, ?_, dialogue.standing.move _ (by simp) buffer same both⟩
    · simpa using dialogue.order
    · simpa [buffer] using dialogue.parsed
  | some signal =>
    obtain ⟨input, asked, talk, left, rejected⟩ := silent signal rfl
    refine ⟨dialogue.goesOn (by simp [talk]), ?_,
      dialogue.standing.move _ (fun goesOn => not_ended_append goesOn left rejected)
        buffer same both⟩
    simpa [buffer, input, asked] using dialogue.parsed

/-- New bytes are read behind what the buffer held. -/
theorem Dialogue.arrive {bytes : Bytes}
    (dialogue : Dialogue client trace ⟨.reading, bytes⟩ exchanges pending) (chunk : Bytes)
    (waits : nextRequest bytes = some (.ok none, bytes)) :
    Dialogue client (trace ++ [.arrived client chunk]) ⟨.reading, bytes ++ chunk⟩
      exchanges pending := by
  obtain ⟨whole, rfl, goesOn⟩ := dialogue.standing.of_running nofun
  refine ⟨dialogue.goesOn (by simp [Signal.talk]), ?_,
    .running nofun whole (not_ended_append goesOn nofun nofun)⟩
  have parsed := dialogue.parsed
  have dry := nextRequest_incremental.poll_waiting waits
  simp only [dry] at parsed
  have ending : (poll nextRequest (trace.flatMap (Signal.input client))).ending = .waiting := by
    rw [parsed]
    rfl
  have longer : poll nextRequest (trace.flatMap (Signal.input client) ++ chunk) = _ :=
    nextRequest_incremental.poll_append_of_waiting ending
  rw [parsed] at longer
  simpa [Signal.input, Signal.asked, Reading.after] using longer

/-- A request is taken off the buffer. -/
theorem Dialogue.receive {bytes left : Bytes}
    (dialogue : Dialogue client trace ⟨.reading, bytes⟩ exchanges pending)
    (gives : nextRequest bytes = some (.ok (some request), left)) :
    Dialogue client (trace ++ [.received client request]) ⟨.received request, left⟩ exchanges
      [.received client request] := by
  obtain ⟨whole, rfl, goesOn⟩ := dialogue.standing.of_running nofun
  refine ⟨dialogue.goesOn (by simp [Signal.talk, Stage.signals]), ?_,
    .running nofun whole (not_ended_append goesOn nofun nofun)⟩
  have parsed := dialogue.parsed
  rw [nextRequest_incremental.poll_item gives, Reading.after_after] at parsed
  simpa [Signal.input, Signal.asked] using parsed

/-- The connection is closed for want of a request. -/
theorem Dialogue.finish {bytes : Bytes} {signal : Signal ι}
    (dialogue : Dialogue client trace ⟨.reading, bytes⟩ exchanges pending)
    (dry : requestsIn bytes = []) (done : signal = .left client ∨ signal = .rejected client) :
    Dialogue client (trace ++ [signal]) ⟨.closed, bytes⟩ exchanges [] := by
  obtain ⟨whole, rfl, -⟩ := dialogue.standing.of_running nofun
  have ended : Ended client (trace ++ [signal]) := by
    rcases done with rfl | rfl
    · exact .inl (by simp)
    · exact .inr (by simp)
  refine ⟨dialogue.goesOn ?_, ?_, .ended ended whole dry⟩
  · rcases done with rfl | rfl <;> rfl
  · rcases done with rfl | rfl <;> simpa [Signal.input, Signal.asked] using dialogue.parsed

/-- A response ends an exchange, whether or not the connection goes on after it. -/
theorem Dialogue.respond {stage : Stage} {bytes : Bytes} {given : Response}
    (dialogue : Dialogue client trace ⟨stage, bytes⟩ exchanges pending)
    (answer : stage.response = some (request, given)) (later : Stage) (sent : Bytes)
    (standing : ∀ exchange : Exchange, exchange.response = given → exchange.sent = sent →
      (∀ earlier ∈ exchanges, earlier.Whole) →
      ¬ Ended client (trace ++ [.responded client request given sent]) →
        Standing client (trace ++ [.responded client request given sent]) ⟨later, bytes⟩
          (exchanges ++ [exchange]) []) :
    ∃ exchanges, Dialogue client (trace ++ [.responded client request given sent]) ⟨later, bytes⟩
      exchanges [] := by
  have unclosed : stage ≠ .closed := by
    rintro rfl
    cases answer
  obtain ⟨whole, rfl, goesOn⟩ := dialogue.standing.of_running unclosed
  obtain ⟨exchange, same, written, signals⟩ := Exchange.exists_of_response answer sent client
  refine ⟨exchanges ++ [exchange], ?_, ?_,
    standing exchange same written whole (not_ended_append goesOn nofun nofun)⟩
  · rw [List.flatMap_append, List.flatMap_singleton]
    exact dialogue.order.ends (by simp [signals, Signal.talk])
  · simpa [Signal.input, Signal.asked] using dialogue.parsed

private theorem Dialogue.turn (dialogue : Dialogue client trace before exchanges pending)
    (turn : Turn client before label after) :
    ∃ exchanges pending, Dialogue client (trace ++ label.toList) after exchanges pending := by
  cases turn with
  | move silent buffer same both =>
    exact ⟨exchanges, pending, dialogue.move silent buffer same both⟩
  | arrive chunk waits => exact ⟨exchanges, pending, dialogue.arrive chunk waits⟩
  | leave waits =>
    have dry := congrArg Reading.items (nextRequest_incremental.poll_waiting waits)
    exact ⟨exchanges, [], dialogue.finish dry (.inl rfl)⟩
  | reject refuses =>
    have dry := congrArg Reading.items (Incremental.poll_failed refuses)
    exact ⟨exchanges, [], dialogue.finish dry (.inr rfl)⟩
  | receive gives => exact ⟨exchanges, _, dialogue.receive gives⟩
  | crash request buffer =>
    obtain ⟨whole, rfl, goesOn⟩ := dialogue.standing.of_running nofun
    refine ⟨exchanges, _, dialogue.goesOn rfl, ?_,
      .crashed (by simp) whole request (not_ended_append goesOn nofun nofun)⟩
    simpa [Signal.input, Signal.asked] using dialogue.parsed
  | serve request sender answer buffer =>
    obtain ⟨whole, rfl, goesOn⟩ := dialogue.standing.of_running nofun
    refine ⟨exchanges, _, dialogue.goesOn (by simp [Signal.talk, Stage.signals]), ?_,
      .running nofun whole (not_ended_append goesOn nofun nofun)⟩
    simpa [Signal.input, Signal.asked] using dialogue.parsed
  | respond answer buffer =>
    obtain ⟨exchanges, later⟩ :=
      dialogue.respond answer .reading _ fun exchange same written whole goesOn => by
      refine Standing.running nofun (fun other member => ?_) goesOn
      rcases List.mem_append.mp member with earlier | now
      · exact whole other earlier
      · rw [List.mem_singleton.mp now, Exchange.Whole, same, written]
    exact ⟨exchanges, [], later⟩
  | sever answer buffer part =>
    obtain ⟨exchanges, later⟩ :=
      dialogue.respond answer .closed _ fun exchange same written whole goesOn =>
      .severed whole (same ▸ written ▸ part) goesOn
    exact ⟨exchanges, [], later⟩

/-- The connection a signal is about. -/
def Signal.about : Signal ι → Option ι
  | .arrived client _ => some client
  | .left client => some client
  | .rejected client => some client
  | .received client _ => some client
  | .failed client .. => some client
  | .crashed client => some client
  | .served client .. => some client
  | .died _ => none
  | .responded client .. => some client

private theorem Signal.silent {signal : Signal ι} (other : signal.about ≠ some client) :
    signal.Silent client := by
  cases signal with
  | died sender => exact ⟨rfl, rfl, rfl, nofun, nofun⟩
  | _ =>
    simp only [about, ne_eq, Option.some.injEq] at other
    constructor <;> simp [input, asked, talk, other]

variable {capacity : Nat} {site : Call → Prop} {state next : Server ι} {registry : TopicRegistry}
  {world : World}

/-- A step of one connection is a move that shows nothing to the others. -/
theorem turn_set {actor : ι} {connection : Connection}
    (own : Turn actor (state.connections actor) label connection)
    (about : ∀ signal, label = some signal → signal.about = some actor) (client : ι) :
    Turn client (state.connections client) label
      ((state.set actor connection).connections client) := by
  by_cases same : client = actor
  · subst same
    rwa [connections_set_self]
  · rw [connections_set_ne state connection same]
    refine .move (fun signal shown => Signal.silent ?_) rfl rfl Iff.rfl
    rw [about signal shown]
    exact fun equal => same (Option.some.inj equal).symm

/-- A step of a connection that shows nothing, or only that a partition could
not be opened. -/
theorem turn_move {actor : ι} {connection : Connection}
    (silent : ∀ client, ∀ signal, label = some signal → signal.Silent client)
    (buffer : connection.buffer = (state.connections actor).buffer)
    (same : connection.stage.signals actor = (state.connections actor).stage.signals actor)
    (both : connection.stage = .closed ↔ (state.connections actor).stage = .closed) (client : ι) :
    Turn client (state.connections client) label
      ((state.set actor connection).connections client) := by
  by_cases here : client = actor
  · subst here
    rw [connections_set_self]
    exact .move (silent client) buffer same both
  · rw [connections_set_ne state connection here]
    exact .move (silent client) rfl rfl Iff.rfl

private theorem silent_of_none (client : ι) (signal : Signal ι) (shown : none = some signal) :
    signal.Silent client := by
  cases shown

private theorem Step.turn (step : Step capacity site state label next)
    (sound : Sound capacity state) (client : ι) :
    Turn client (state.connections client) label (next.connections client) := by
  cases step with
  | arrive chunk nonempty ready waits =>
    exact turn_set (by rw [ready]; exact .arrive chunk waits) (by simp [Signal.about]) client
  | leave ready waits =>
    exact turn_set (by rw [ready]; exact .leave waits) (by simp [Signal.about]) client
  | reject ready refuses =>
    exact turn_set (by rw [ready]; exact .reject refuses) (by simp [Signal.about]) client
  | receive ready gives =>
    exact turn_set (by rw [ready]; exact .receive gives) (by simp [Signal.about]) client
  | hit asked found =>
    exact turn_move silent_of_none (by simp [asked]) (by rw [asked]; rfl) (by simp [asked]) client
  | miss asked creates missing =>
    exact turn_move silent_of_none (by simp [asked]) (by rw [asked]; rfl) (by simp [asked]) client
  | refuse asked reads failed =>
    exact turn_move silent_of_none (by simp [asked]) (by rw [asked]; rfl) (by simp [asked]) client
  | create missed readDir yields =>
    exact turn_move silent_of_none (by simp [missed]) (by rw [missed]; rfl)
      (by simp [missed]) client
  | fail missed readDir yields =>
    refine turn_move (fun client signal shown => ?_) (by simp [missed]) (by rw [missed]; rfl)
      (by simp [missed]) client
    cases shown
    exact ⟨rfl, rfl, rfl, nofun, nofun⟩
  | crash missed readDir yields =>
    exact turn_set (by rw [missed]; exact .crash _ _) (by simp [Signal.about]) client
  | send routed alive room =>
    exact turn_move silent_of_none (by simp [routed]) (by rw [routed]; rfl)
      (by simp [routed]) client
  | bounce routed dead =>
    exact turn_move silent_of_none (by simp [routed]) (by rw [routed]; rfl)
      (by simp [routed]) client
  | take free queued => exact .move (silent_of_none client) rfl rfl Iff.rfl
  | @serve sender actor request partition answer result after current held yields =>
    have queued : (actor, request) ∈ (state.tasks sender).unanswered := by
      simp [Task.unanswered, current]
    have waiting : (state.connections actor).stage = .waiting request sender := by
      simpa [hub] using sound.coherent.mailed actor request sender queued
    refine turn_set ?_ (by simp [Signal.about]) client
    generalize state.connections actor = connection at waiting
    obtain ⟨stage, buffer⟩ := connection
    obtain rfl : stage = _ := waiting
    exact .serve request sender answer buffer
  | panic current held yields =>
    refine .move (fun signal shown => ?_) rfl (Stage.signals_lose client _ _) Stage.lose_eq_closed
    cases shown
    exact Signal.silent (Option.some_ne_none _).symm
  | respond ready answer =>
    exact turn_set (by rw [ready]; exact .respond answer _) (by simp [Signal.about]) client
  | sever ready answer part =>
    exact turn_set (by rw [ready]; exact .sever answer _ part) (by simp [Signal.about]) client

theorem Run.dialogue (run : Run capacity site (Server.start world registry) trace state)
    (owned : registry.Owned) (client : ι) :
    ∃ exchanges pending, Dialogue client trace (state.connections client) exchanges pending := by
  induction run with
  | start => exact ⟨[], [], .start _, rfl, .running nofun (by simp) (by simp [Ended])⟩
  | step run step ih =>
    obtain ⟨exchanges, pending, dialogue⟩ := ih
    exact dialogue.turn (step.turn (run.sound (.start world owned capacity)) client)

private theorem Signal.asked_talk (client : ι) (signal : Signal ι) :
    (signal.talk client).flatMap (Signal.asked client) = signal.asked client := by
  cases signal with
  | received sender request =>
    simp only [talk, asked]
    split <;> simp_all [asked]
  | served sender request answer =>
    simp only [talk, asked]
    split <;> rfl
  | responded sender request response sent =>
    simp only [talk, asked]
    split <;> rfl
  | _ => rfl

private theorem Signal.output_talk (client : ι) (signal : Signal ι) :
    (signal.talk client).flatMap (Signal.output client) = signal.output client := by
  cases signal with
  | received sender request =>
    simp only [talk, output]
    split <;> rfl
  | served sender request answer =>
    simp only [talk, output]
    split <;> rfl
  | responded sender request response sent =>
    simp only [talk, output]
    split <;> simp_all [output]
  | _ => rfl

private theorem Exchange.asked_signals (client : ι) (exchange : Exchange) :
    (exchange.signals client).flatMap (Signal.asked client) = [exchange.request] := by
  unfold signals
  split <;> simp [Signal.asked]

private theorem Exchange.output_signals (client : ι) (exchange : Exchange) :
    (exchange.signals client).flatMap (Signal.output client) = exchange.sent := by
  unfold signals
  split <;> simp [Signal.output]

/-- At most one request is under way, and nothing of its answer is written. -/
theorem Standing.under_way (standing : Standing client trace before exchanges pending) :
    (pending.flatMap (Signal.asked client)).length ≤ 1 ∧
    pending.flatMap (Signal.output client) = [] := by
  cases standing with
  | running unclosed whole goesOn =>
    generalize before.stage = stage
    cases stage with
    | replied request reply => cases reply <;> simp [Stage.signals, Signal.asked, Signal.output]
    | _ => simp [Stage.signals, Signal.asked, Signal.output]
  | ended | severed | crashed => simp [Signal.asked, Signal.output]

namespace Dialogue

private theorem asked_eq (dialogue : Dialogue client trace before exchanges pending) :
    trace.flatMap (Signal.asked client) =
      exchanges.map Exchange.request ++ pending.flatMap (Signal.asked client) := by
  have order := dialogue.order.flatMap (Signal.asked client)
  rw [List.flatMap_assoc] at order
  simp only [Signal.asked_talk, Exchange.asked_signals] at order
  rw [order, List.map_eq_flatMap]

theorem output_eq (dialogue : Dialogue client trace before exchanges pending) :
    trace.flatMap (Signal.output client) = exchanges.flatMap Exchange.sent := by
  have order := (dialogue.order.flatMap (Signal.output client)).complete
    dialogue.standing.under_way.2
  rw [List.flatMap_assoc] at order
  simpa only [Signal.output_talk, Exchange.output_signals] using order

private theorem taken (dialogue : Dialogue client trace before exchanges pending) :
    requestsIn (trace.flatMap (Signal.input client)) = trace.flatMap (Signal.asked client) ++
      requestsIn before.buffer := by
  rw [requestsIn, dialogue.parsed]
  rfl

end Dialogue

/-- Nothing is left to do for a connection until more bytes arrive. -/
def Connection.AtRest (connection : Connection) : Prop :=
  connection.stage = .reading ∧ nextRequest connection.buffer = some (.ok none, connection.buffer)

/-- Once nothing is left of what a client sent, every request has its answer. -/
theorem Dialogue.settled (dialogue : Dialogue client trace before exchanges pending)
    (rest : before.AtRest ∨ Ended client trace) :
    exchanges.map Exchange.request = requestsIn (trace.flatMap (Signal.input client)) ∧
      ∀ exchange ∈ exchanges, exchange.Whole := by
  have taken := dialogue.taken
  have asked := dialogue.asked_eq
  cases dialogue.standing with
  | running unclosed whole goesOn =>
    obtain ⟨reading, waits⟩ := rest.resolve_right goesOn
    have dry : requestsIn before.buffer = [] := by
      rw [requestsIn, nextRequest_incremental.poll_waiting waits]
    rw [dry, List.append_nil, asked, reading] at taken
    exact ⟨by simpa [Stage.signals] using taken.symm, whole⟩
  | ended done whole dry =>
    rw [dry, List.append_nil, asked] at taken
    exact ⟨by simpa using taken.symm, whole⟩
  | severed whole part goesOn => exact absurd (rest.resolve_right goesOn).1 nofun
  | crashed panicked whole request goesOn => exact absurd (rest.resolve_right goesOn).1 nofun

/-- What the bytes of a connection come to. -/
structure Conversation (client : ι) (trace : List (Signal ι)) (connection : Connection)
    (exchanges : List Exchange) : Prop where
  order : ∃ pending,
    trace.flatMap (Signal.talk client) = exchanges.flatMap (Exchange.signals client) ++ pending ∧
    Standing client trace connection exchanges pending
  asked : ∃ unanswered, unanswered.length ≤ 1 ∧
    trace.flatMap (Signal.asked client) = exchanges.map Exchange.request ++ unanswered
  taken : trace.flatMap (Signal.asked client) <+: requestsIn (trace.flatMap (Signal.input client))
  output : trace.flatMap (Signal.output client) = exchanges.flatMap Exchange.sent
  correlated : ∀ exchange ∈ exchanges,
    exchange.response.correlationId = exchange.request.correlationId
  settled : connection.AtRest ∨ Ended client trace →
    exchanges.map Exchange.request = requestsIn (trace.flatMap (Signal.input client)) ∧
      ∀ exchange ∈ exchanges, exchange.Whole

/-- Whatever fails, panics or interleaves, and however the bytes of a client were
cut: its requests are those its bytes encode, up to the first that is none; each
is run at most once and answered before the next one is taken; what it gets back
are the frames of the answers in that order, the last one cut only if the write
failed; and once its bytes are used up, or it has sent something that is no
request, every request before that has had its whole answer. -/
theorem connection_answers_in_order
    (run : Run capacity site (Server.start world registry) trace state) (owned : registry.Owned)
    (client : ι) : ∃ exchanges, Conversation client trace (state.connections client) exchanges := by
  obtain ⟨exchanges, pending, dialogue⟩ := run.dialogue owned client
  refine ⟨exchanges, ?_⟩
  constructor
  case order => exact ⟨pending, dialogue.order, dialogue.standing⟩
  case asked => exact ⟨_, dialogue.standing.under_way.1, dialogue.asked_eq⟩
  case taken => exact ⟨_, dialogue.taken.symm⟩
  case output => exact dialogue.output_eq
  case correlated => exact fun exchange _ => exchange.correlationId_response
  case settled => exact dialogue.settled

/-- A fetch that arrives in two parts, from a partition that is not there. -/
theorem connection_answers_in_order_cut :
    let request : Protocol.Request := .fetch ⟨7, "t", 0, 0, 100⟩
    let response : Response := .ofError 7 (.partitionNotFound "t" 0)
    let trace : List (Signal Bool) := [.arrived true (request.intoFrame.encode.take 10),
      .arrived true (request.intoFrame.encode.drop 10), .received true request,
      .responded true request response response.intoFrame.encode]
    ∃ state exchanges, Run 1 (fun _ => True) (start blankWorld (.new [] 100 .none)) trace state ∧
      Conversation true trace (state.connections true) exchanges := by
  intro request response trace
  have run : Run 1 (fun _ => True) (start blankWorld (.new [] 100 .none) :
      Server Bool) [] _ := .start
  have run := run.step (show Step _ _ _ (some (.arrived true (request.intoFrame.encode.take 10)))
    _ from .arrive _ (by decide) rfl (by decide))
  have run := run.step (show Step _ _ _ (some (.arrived true (request.intoFrame.encode.drop 10)))
    _ from .arrive _ (by decide) (connections_set_self _ _ _) (by decide))
  have run := run.step (show Step _ _ _ (some (.received true request))
    (set _ true ⟨.received request, []⟩) from
      .receive (connections_set_self _ _ _) (by decide +kernel))
  have run := run.step (show Step _ _ _ none
    (set _ true ⟨.refused request (.partitionNotFound "t" 0), []⟩) from
      .refuse (connections_set_self _ _ _) not_false rfl)
  have run := run.step (show Step _ _ _
    (some (.responded true request response response.intoFrame.encode)) _ from
      .respond (connections_set_self _ _ _) rfl)
  obtain ⟨exchanges, conversation⟩ :=
    connection_answers_in_order run (TopicRegistry.owned_new [] 100 .none) true
  exact ⟨_, exchanges, run, conversation⟩

end Server

end Ruka
