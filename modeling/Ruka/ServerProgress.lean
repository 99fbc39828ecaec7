import Mathlib.Algebra.BigOperators.Group.Finset.Basic
import Mathlib.Algebra.Order.BigOperators.Group.Finset
import Ruka.ServerConversations

/-! Nobody waits for ever. Every step the server takes by itself uses up some of
what was sent to it, so there are only so many before all is answered; and as long
as something is not, some step is possible, however full the channels are and
whatever has failed or panicked. A client that does not read its responses keeps
its own connection waiting and no other. That memory suffices is taken for granted
here: an allocation that fails ends the process. -/
namespace Ruka
open BigEndian LexicalPaths FilePrograms StreamDecoding Protocol

namespace Server
variable {ι : Type}

/-- Whether a step is the server's own: it takes no new bytes and no leave, and
`framed.send` comes to an end only for a client that reads what it is sent. -/
def Internal (reads : ι → Prop) : Option (Signal ι) → Prop
  | some (.arrived ..) => False
  | some (.left _) => False
  | some (.responded client ..) => reads client
  | _ => True

/-- How many steps a connection can cause without new bytes, at most. A command
in the channel is one step further from its answer than one the task has taken. -/
def Connection.weight (taken : Protocol.Request → Nat → Bool) (connection : Connection) : Nat :=
  match connection.stage with
  | .closed => 0
  | .reading => 8 * connection.buffer.length
  | .received _ => 8 * connection.buffer.length + 6
  | .missed _ => 8 * connection.buffer.length + 5
  | .routed .. => 8 * connection.buffer.length + 4
  | .waiting request sender => 8 * connection.buffer.length + if taken request sender then 2 else 3
  | .refused .. => 8 * connection.buffer.length + 1
  | .replied .. => 8 * connection.buffer.length + 1

/-- The more the tasks have taken, the lighter a connection is. -/
theorem Connection.weight_mono {connection : Connection}
    {before after : Protocol.Request → Nat → Bool}
    (stays : ∀ request sender, connection.stage = .waiting request sender →
      before request sender = true → after request sender = true) :
    connection.weight after ≤ connection.weight before := by
  unfold weight
  split
  case h_6 request sender stage =>
    by_cases taken : before request sender = true
    · rw [if_pos taken, if_pos (stays request sender stage taken)]
    · rw [if_neg taken]
      split <;> omega
  all_goals exact Nat.le_refl _

private theorem Stage.lose_ne_waiting (stage : Stage) (sender : Nat) (request : Protocol.Request) :
    stage.lose sender ≠ .waiting request sender := by
  cases stage with
  | waiting asked target =>
    simp only [lose]
    split <;> simp_all
  | _ => simp [lose]

/-- Losing the task of a command brings its answer closer. -/
theorem Connection.weight_lose (connection : Connection) (sender : Nat)
    (taken : Protocol.Request → Nat → Bool) :
    ({ connection with stage := connection.stage.lose sender } : Connection).weight taken ≤
      connection.weight taken := by
  obtain ⟨stage, buffer⟩ := connection
  cases stage with
  | waiting request target =>
    simp only [weight, Stage.lose]
    by_cases here : target = sender
    · simp only [if_pos here]
      split <;> omega
    · simp only [if_neg here]
      exact Nat.le_refl _
  | _ => exact Nat.le_refl _

/-- A connection with a response to send still has that step to take. -/
theorem Connection.weight_response {stage : Stage} {given : Response}
    (answer : stage.response = some (request, given)) (buffer : Bytes)
    (taken : Protocol.Request → Nat → Bool) :
    (⟨stage, buffer⟩ : Connection).weight taken = 8 * buffer.length + 1 := by
  cases stage with
  | refused asked error => rfl
  | replied asked reply => rfl
  | _ => cases answer

private theorem nextRequest_nil : nextRequest [] = some (.ok none, []) := rfl

private theorem pos_of_nextRequest (answered : nextRequest buffer = some (answer, rest))
    (settled : answer ≠ .ok none) : 0 < buffer.length := by
  apply List.length_pos_iff.mpr
  rintro rfl
  rw [nextRequest_nil] at answered
  cases answered
  exact settled rfl

variable [DecidableEq ι]

/-- So many steps of the server's own, with what they showed. -/
inductive Works (capacity : Nat) (site : Call → Prop) (reads : ι → Prop) :
    Server ι → Nat → List (Signal ι) → Server ι → Prop
  | rest (state : Server ι) : Works capacity site reads state 0 [] state
  | step (step : Step capacity site state label next) (internal : Internal reads label)
      (works : Works capacity site reads next count more last) :
      Works capacity site reads state (count + 1) (label.toList ++ more) last

variable {capacity : Nat} {site : Call → Prop} {reads : ι → Prop} {state next last : Server ι}
  {label : Option (Signal ι)} {trace more : List (Signal ι)} {registry : TopicRegistry}
  {world : World} {client : ι}

/-- The task has taken this command out of its channel. -/
def taken (state : Server ι) (client : ι) (request : Protocol.Request) (sender : Nat) : Bool :=
  (state.tasks sender).current = some (client, request)

def weight (state : Server ι) (client : ι) : Nat :=
  (state.connections client).weight (state.taken client)

private theorem weight_le (state : Server ι) (client : ι) :
    state.weight client ≤ 8 * (state.connections client).buffer.length + 6 := by
  unfold weight Connection.weight
  split
  case h_6 => split <;> omega
  all_goals omega

/-- One connection gets lighter and no other heavier. -/
def Lighter (state next : Server ι) : Prop :=
  (∀ client, next.weight client ≤ state.weight client) ∧
    ∃ client, next.weight client < state.weight client

private theorem weight_eq {connection : Connection}
    (stands : state.connections client = connection) :
    state.weight client = connection.weight (state.taken client) := by
  rw [weight, stands]

private theorem taken_setTask_self (state : Server ι) (sender : Nat) (task : Task ι) (other : ι)
    (request : Protocol.Request) :
    (state.setTask sender task).taken other request sender =
      decide (task.current = some (other, request)) := by
  simp [taken, setTask]

private theorem taken_setTask_ne (state : Server ι) (task : Task ι) (other : ι)
    (request : Protocol.Request) (differ : target ≠ sender) :
    (state.setTask sender task).taken other request target = state.taken other request target := by
  simp [taken, setTask, differ]

/-- A task that holds on to what it has taken makes no connection heavier. -/
theorem weight_setTask_le {task : Task ι} (state : Server ι) (sender : Nat) (client : ι)
    (stays : ∀ request, (state.connections client).stage = .waiting request sender →
      (state.tasks sender).current = some (client, request) →
      task.current = some (client, request)) :
    (state.setTask sender task).weight client ≤ state.weight client := by
  refine Connection.weight_mono fun request target stage before => ?_
  by_cases here : target = sender
  · subst here
    rw [taken_setTask_self]
    exact decide_eq_true (stays request stage (of_decide_eq_true before))
  · rwa [taken_setTask_ne state task client request here]

/-- A connection moves on, after something that made no other heavier. -/
theorem lighter_set {middle : Server ι} {connection : Connection}
    (others : ∀ other, other ≠ client → middle.weight other ≤ state.weight other)
    (lighter : connection.weight (middle.taken client) < state.weight client) :
    Lighter state (middle.set client connection) := by
  have self : (middle.set client connection).weight client =
      connection.weight (middle.taken client) := by
    unfold weight
    rw [connections_set_self]
    rfl
  refine ⟨fun other => ?_, client, by rwa [self]⟩
  by_cases here : other = client
  · subst here
    rw [self]
    exact Nat.le_of_lt lighter
  · have untouched : (middle.set client connection).weight other = middle.weight other := by
      unfold weight
      rw [connections_set_ne middle connection here]
      rfl
    rw [untouched]
    exact others other here

private theorem weight_waiting_le (taken : Protocol.Request → Nat → Bool)
    (request : Protocol.Request) (sender : Nat) (buffer : Bytes) :
    (⟨.waiting request sender, buffer⟩ : Connection).weight taken ≤ 8 * buffer.length + 3 := by
  simp only [Connection.weight]
  split <;> omega

private theorem le_weight_of_waiting
    (waiting : (state.connections client).stage = .waiting request sender) :
    8 * (state.connections client).buffer.length + 2 ≤ state.weight client := by
  simp only [weight, Connection.weight, waiting]
  split <;> omega

/-- A command that is taken out of its channel is a step closer to its answer. -/
theorem lighter_take {rest : List (ι × Protocol.Request)}
    (free : (state.tasks sender).current = none)
    (waiting : (state.connections client).stage = .waiting request sender) :
    Lighter state (state.setTask sender
      { state.tasks sender with current := some (client, request), queue := rest }) := by
  refine ⟨fun other => weight_setTask_le state sender other fun asked _ taken => ?_, client, ?_⟩
  · rw [free] at taken
    cases taken
  · unfold weight Connection.weight
    simp [setTask, taken, waiting, free]

/-- The commands of a task that panics are answered at once. -/
theorem lighter_panic (after : World)
    (waiting : (state.connections client).stage = .waiting request sender) :
    Lighter state ((({ state with world := after } : Server ι).setTask sender ⟨[], none,
      true⟩).lose sender) := by
  refine ⟨fun other => ?_, client, ?_⟩
  · -- whoever still waits does so for another task
    refine Nat.le_trans (Connection.weight_mono fun asked target stage taken => ?_)
      ((state.connections other).weight_lose sender (state.taken other))
    have differ : target ≠ sender := by
      rintro rfl
      exact Stage.lose_ne_waiting _ _ _ stage
    exact (taken_setTask_ne ({ state with world := after } : Server ι) _ other asked
      differ).trans taken
  · have heavy := le_weight_of_waiting waiting
    refine Nat.lt_of_lt_of_le ?_ heavy
    simp only [weight, Connection.weight, lose, setTask, waiting, Stage.lose_waiting]
    omega

private theorem Step.lighter (step : Step capacity site state label next)
    (internal : Internal reads label) (sound : Sound capacity state) : Lighter state next := by
  have waiting {client : ι} {request : Protocol.Request} {sender : Nat}
      (queued : (client, request) ∈ (state.tasks sender).unanswered) :
      (state.connections client).stage = .waiting request sender := by
    simpa [hub] using sound.coherent.mailed client request sender queued
  have unchanged (other : ι) : state.weight other ≤ state.weight other := Nat.le_refl _
  cases step with
  | arrive chunk nonempty ready waits => exact internal.elim
  | leave ready waits => exact internal.elim
  | reject ready refuses =>
    have bytes := pos_of_nextRequest refuses (by simp)
    refine lighter_set (fun other _ => unchanged other) ?_
    rw [weight_eq ready]
    simp only [Connection.weight]
    omega
  | receive ready gives =>
    have shorter := nextRequest_incremental.consumes _ _ _ gives
    refine lighter_set (fun other _ => unchanged other) ?_
    rw [weight_eq ready]
    simp only [Connection.weight]
    omega
  | hit asked found =>
    refine lighter_set (fun other _ => unchanged other) ?_
    rw [weight_eq asked]
    simp [Connection.weight]
  | miss asked creates missing =>
    refine lighter_set (fun other _ => unchanged other) ?_
    rw [weight_eq asked]
    simp [Connection.weight]
  | refuse asked reads failed =>
    refine lighter_set (fun other _ => unchanged other) ?_
    rw [weight_eq asked]
    simp [Connection.weight]
  | create missed readDir yields =>
    refine lighter_set (fun other _ => unchanged other) ?_
    rw [weight_eq missed]
    simp [Connection.weight]
  | fail missed readDir yields =>
    refine lighter_set (fun other _ => unchanged other) ?_
    rw [weight_eq missed]
    simp [Connection.weight]
  | crash missed readDir yields =>
    refine lighter_set (fun other _ => unchanged other) ?_
    rw [weight_eq missed]
    simp [Connection.weight]
  | send routed alive room =>
    refine lighter_set (fun other _ => weight_setTask_le state _ other fun _ _ taken => taken) ?_
    rw [weight_eq routed]
    exact Nat.lt_of_le_of_lt (weight_waiting_le _ _ _ _) (by simp [Connection.weight])
  | bounce routed dead =>
    refine lighter_set (fun other _ => unchanged other) ?_
    rw [weight_eq routed]
    simp [Connection.weight]
  | @take sender command rest free queued =>
    exact lighter_take free (waiting (by simp [Task.unanswered, free, queued]))
  | @serve sender client request partition answer result after current held yields =>
    have heavy := le_weight_of_waiting (waiting (by simp [Task.unanswered, current]) :
      (state.connections client).stage = .waiting request sender)
    refine lighter_set (fun other differ => weight_setTask_le
      { state with world := after, registry := state.registry.replace sender result } sender other
        fun _ _ taken => ?_) ?_
    · rw [current] at taken
      cases taken
      exact absurd rfl differ
    · refine Nat.lt_of_lt_of_le ?_ heavy
      simp only [Connection.weight]
      omega
  | @panic sender client request partition after current held yields =>
    exact lighter_panic _ (waiting (by simp [Task.unanswered, current]) :
      (state.connections client).stage = .waiting request sender)
  | respond ready answer =>
    refine lighter_set (fun other _ => unchanged other) ?_
    rw [weight_eq ready, Connection.weight_response answer]
    simp [Connection.weight]
  | sever ready answer part =>
    refine lighter_set (fun other _ => unchanged other) ?_
    rw [weight_eq ready, Connection.weight_response answer]
    simp [Connection.weight]

/-- There is nothing the server can do by itself. -/
def Quiet (capacity : Nat) (site : Call → Prop) (reads : ι → Prop) (state : Server ι) : Prop :=
  ∀ label next, Step capacity site state label next → ¬ Internal reads label

/-- A task that has a command can go on with it. -/
theorem Sound.exists_step_of_task (sound : Sound capacity state) (site : Call → Prop)
    (reads : ι → Prop) (waiting : (state.connections client).stage = .waiting request sender) :
    ∃ label next, Step capacity site state label next ∧ Internal reads label := by
  have posted := sound.coherent.posted client request sender (by simp [hub, waiting])
  cases current : (state.tasks sender).current with
  | none =>
    obtain ⟨command, rest, queued⟩ :
      ∃ command rest, (state.tasks sender).queue = command :: rest := by
      refine List.exists_cons_of_ne_nil fun empty => ?_
      simp [hub, Task.unanswered, current, empty] at posted
    exact ⟨_, _, .take current queued, trivial⟩
  | some command =>
    obtain ⟨other, asked⟩ := command
    have theirs := sound.coherent.mailed other asked sender
      (by simp [hub, Task.unanswered, current])
    obtain ⟨partition, held, -⟩ :=
      sound.owned.getElem? (sound.coherent.found other asked sender (.inr theirs))
    rcases (partition.serve_ends asked.command state.world).returns_or_panics with
      ⟨⟨answer, result⟩, after, ran, -⟩ | ⟨⟨after, ran⟩, -⟩
    · exact ⟨_, _, .serve current held (Program.yields_of_run ran), trivial⟩
    · exact ⟨_, _, .panic current held (Program.yields_of_run ran), trivial⟩

/-- A connection that is neither closed nor out of bytes keeps the server busy, if
its client reads. -/
theorem Sound.progress (sound : Sound capacity state) (site : Call → Prop) (positive : 0 < capacity)
    (reading : reads client) :
    (state.connections client).stage = .closed ∨ (state.connections client).AtRest ∨
      ∃ label next, Step capacity site state label next ∧ Internal reads label := by
  obtain ⟨stage, buffer, stands⟩ :
    ∃ stage buffer, state.connections client = ⟨stage, buffer⟩ := ⟨_, _, rfl⟩
  cases stage with
  | closed => exact .inl (by rw [stands])
  | reading =>
    obtain ⟨⟨answer, rest⟩, answered⟩ := nextRequest_incremental.total buffer
    match answer, answered with
    | .ok none, answered =>
      have same := nextRequest_incremental.waits _ _ answered
      subst same
      exact .inr (.inl ⟨by rw [stands], by rwa [stands]⟩)
    | .error error, answered => exact .inr (.inr ⟨_, _, .reject stands answered, trivial⟩)
    | .ok (some request), answered => exact .inr (.inr ⟨_, _, .receive stands answered, trivial⟩)
  | received request =>
    cases found : state.registry.find request.key.1 request.key.2 with
    | some sender => exact .inr (.inr ⟨_, _, .hit stands found, trivial⟩)
    | none =>
      cases request with
      | produce | produceBatch => exact .inr (.inr ⟨_, _, .miss stands trivial found, trivial⟩)
      | fetch req =>
        have failed : state.registry.getPartition req.topic req.partition =
            .error (.partitionNotFound req.topic req.partition) := by
          unfold TopicRegistry.getPartition
          rw [show state.registry.find req.topic req.partition = none from found]
        exact .inr (.inr ⟨_, _, .refuse stands not_false failed, trivial⟩)
  | missed request =>
    have ends := (state.registry.ends_createPartition (fun _ => []) request.key.1
      request.key.2).ensures state.world
    rcases ends.returns_or_panics with ⟨⟨answer, changed⟩, after, ran, -⟩ | ⟨⟨after, ran⟩, -⟩
    · cases answer with
      | error error => exact .inr (.inr ⟨_, _, .fail stands _ (Program.yields_of_run ran), trivial⟩)
      | ok sender => exact .inr (.inr ⟨_, _, .create stands _ (Program.yields_of_run ran), trivial⟩)
    · exact .inr (.inr ⟨_, _, .crash stands _ (Program.yields_of_run ran), trivial⟩)
  | refused request error => exact .inr (.inr ⟨_, _, .respond stands rfl, reading⟩)
  | replied request reply => exact .inr (.inr ⟨_, _, .respond stands rfl, reading⟩)
  | waiting request sender =>
    exact .inr (.inr (sound.exists_step_of_task site reads (by rw [stands])))
  | routed request sender =>
    cases dead : (state.tasks sender).dead with
    | true => exact .inr (.inr ⟨_, _, .bounce stands dead, trivial⟩)
    | false =>
      by_cases room : (state.tasks sender).queue.length < capacity
      · exact .inr (.inr ⟨_, _, .send stands dead room, trivial⟩)
      · -- whoever fills the channel waits for the same task
        have full : (state.tasks sender).queue ≠ [] := by
          intro empty
          rw [empty, List.length_nil] at room
          omega
        obtain ⟨⟨other, asked⟩, rest, queued⟩ := List.exists_cons_of_ne_nil full
        have theirs := sound.coherent.mailed other asked sender
          (by simp [hub, Task.unanswered, queued])
        exact .inr (.inr (sound.exists_step_of_task site reads (by simpa [hub] using theirs)))

private theorem Works.run {first : Server ι}
    (works : Works capacity site reads state count more last)
    (run : Run capacity site first trace state) : Run capacity site first (trace ++ more) last := by
  induction works generalizing trace with
  | rest state => rwa [List.append_nil]
  | step step internal works ih =>
    rw [← List.append_assoc]
    exact ih (run.step step)

/-- Whatever the server does by itself, no client has sent more. -/
theorem Works.input (works : Works capacity site reads state count more last) (client : ι) :
    more.flatMap (Signal.input client) = [] := by
  induction works with
  | rest state => rfl
  | @step state label next count more last step internal works ih =>
    rw [List.flatMap_append, ih, List.append_nil]
    match label, internal with
    | none, _ => rfl
    | some (.rejected _), _ => rfl
    | some (.received ..), _ => rfl
    | some (.failed ..), _ => rfl
    | some (.crashed _), _ => rfl
    | some (.served ..), _ => rfl
    | some (.died _), _ => rfl
    | some (.responded ..), _ => rfl

section Finite
variable [Fintype ι]

/-- What is left to do in the whole server. -/
def energy (state : Server ι) : Nat := ∑ client, state.weight client

private theorem Lighter.energy (lighter : Lighter state next) : next.energy < state.energy := by
  obtain ⟨empty, client, less⟩ := lighter
  exact Finset.sum_lt_sum (fun other _ => empty other) ⟨client, Finset.mem_univ client, less⟩

private theorem Works.energy (works : Works capacity site reads state count more last)
    (sound : Sound capacity state) : count + last.energy ≤ state.energy := by
  induction works with
  | rest state => exact Nat.le_of_eq (Nat.zero_add _)
  | step step internal works ih =>
    have less := (step.lighter internal sound).energy
    have later := ih (step.sound sound)
    omega

/-- Some order of steps comes to an end; in fact every order does. -/
theorem Sound.exists_quiet (sound : Sound capacity state) :
    ∃ count more last, Works capacity site reads state count more last ∧
    Quiet capacity site reads last := by
  induction bound : state.energy using Nat.strongRecOn generalizing state with
  | _ n ih =>
    by_cases quiet : Quiet capacity site reads state
    · exact ⟨0, [], state, .rest state, quiet⟩
    · obtain ⟨label, next, step, internal⟩ : ∃ label next, Step capacity site state label next ∧
        Internal reads label := by
        simpa [Quiet] using quiet
      have less := (step.lighter internal sound).energy
      obtain ⟨count, more, last, works, quiet⟩ := ih next.energy (by omega) (step.sound sound) rfl
      exact ⟨count + 1, _, last, .step step internal works, quiet⟩

/-- Left to itself the server comes to rest, after a number of steps that what it
has read so far bounds, in every order and whatever fails or panics on the way. Then
every request that a client sent before is answered to the last byte, if the client
reads and its connection did not break: no write to it failed, and opening a partition
for it did not panic. What the other clients do not read makes no difference to it. -/
theorem every_request_is_answered (run : Run capacity site (start world registry) trace state)
    (owned : registry.Owned) (positive : 0 < capacity) (reads : ι → Prop) :
    (∃ count more last, Works capacity site reads state count more last ∧
      Quiet capacity site reads last) ∧
    ∀ count more last, Works capacity site reads state count more last →
      count ≤ ∑ client, (8 * (state.connections client).buffer.length + 6) ∧
      (Quiet capacity site reads last → ∀ client, reads client →
        ((last.connections client).stage = .closed ∧ ¬ Ended client (trace ++ more)) ∨
        ∃ exchanges : List Exchange,
          exchanges.map Exchange.request = requestsIn (trace.flatMap (Signal.input client)) ∧
          (trace ++ more).flatMap (Signal.output client) =
            exchanges.flatMap fun exchange => exchange.response.intoFrame.encode) := by
  have sound := run.sound (.start world owned capacity)
  refine ⟨sound.exists_quiet, fun count more last works => ⟨?_, fun quiet client reading => ?_⟩⟩
  · have spent := works.energy sound
    have limit : state.energy ≤ ∑ client, (8 * (state.connections client).buffer.length + 6) :=
      Finset.sum_le_sum fun client _ => state.weight_le client
    omega
  · have later := works.run run
    obtain ⟨exchanges, pending, dialogue⟩ := later.dialogue owned client
    have settles (rest : (last.connections client).AtRest ∨ Ended client (trace ++ more)) :
        exchanges.map Exchange.request = requestsIn (trace.flatMap (Signal.input client)) ∧
          (trace ++ more).flatMap (Signal.output client) =
            exchanges.flatMap fun exchange => exchange.response.intoFrame.encode := by
      obtain ⟨all, whole⟩ := dialogue.settled rest
      rw [List.flatMap_append, works.input, List.append_nil] at all
      refine ⟨all, dialogue.output_eq.trans ?_⟩
      exact List.flatMap_congr whole
    by_cases ended : Ended client (trace ++ more)
    · exact .inr ⟨exchanges, settles (.inr ended)⟩
    · rcases (later.sound (.start world owned capacity)).progress site positive reading with
        closed | rest | ⟨label, next, step, internal⟩
      · exact .inl ⟨closed, ended⟩
      · exact .inr ⟨exchanges, settles (.inl rest)⟩
      · exact absurd internal (quiet label next step)

end Finite

/-- A produce request that has just arrived. -/
theorem every_request_is_answered_produce :
    let request : Protocol.Request := .produce ⟨7, "t", 0, [1, 2]⟩
    ∃ state : Server Bool, Run 1 (fun _ => True) (start blankWorld (.new [] 100 .none))
        [.arrived true request.intoFrame.encode] state ∧
      ∃ count more last, Works 1 (fun _ => True) (· = true) state count more last ∧
        Quiet 1 (fun _ => True) (· = true) last ∧
        count ≤ 8 * request.intoFrame.encode.length + 12 := by
  intro request
  have run : Run 1 (fun _ => True) (start blankWorld (.new [] 100 .none) :
      Server Bool) [] _ := .start
  have run := run.step (show Step _ _ _ (some (.arrived true request.intoFrame.encode)) _ from
    .arrive _ (by decide) rfl (by decide))
  obtain ⟨⟨count, more, last, works, quiet⟩, every⟩ :=
    every_request_is_answered run (TopicRegistry.owned_new [] 100 .none) (by decide) (· = true)
  refine ⟨_, run, count, more, last, works, quiet, Nat.le_trans (every count more last works).1 ?_⟩
  simp [set, start]

end Server

end Ruka
