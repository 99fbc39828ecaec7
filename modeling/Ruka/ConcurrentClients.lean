import Ruka.ConnectionSteps

/-! What concurrent clients can rely on: however the connections and the tasks
take turns, the partition of a key is the append-only list that the commands run
on it explain, one span for each command, and every connection gets the answer to
its own command. -/
namespace Ruka
open LexicalPaths FilePrograms Protocol

/-- Every task has the list of its key, and a key without a task an empty one. -/
structure Logged (world : World) (registry : TopicRegistry)
    (logs : String × UInt32 → List Content) : Prop where
  lives : ∀ partition ∈ registry.actors, ∃ tiles,
    Lives world registry.baseDir registry.maxSegmentBytes registry.syncLevel partition tiles ∧
      logOf tiles = logs partition.key
  empty : ∀ topic id, registry.find topic id = none → logs (topic, id) = []

namespace Lives
variable {world : World} {baseDir : Path} {syncLevel : SyncLevel} {partition : Partition}
  {tiles : List Tile}

private theorem nextOffset_eq
    (lives : Lives world baseDir maxSegmentBytes syncLevel partition tiles) :
    partition.nextOffset = (logOf tiles).length := by
  rw [lives.shape]
  exact Partition.nextOffset_eq_length lives.filed

private theorem run_read (lives : Lives world baseDir maxSegmentBytes syncLevel partition tiles)
    (offset : Nat) :
    ∃ found result, (partition.read offset).run world = (.ok (.ok found, result), world) ∧
      found.map (fun record => (record.offset, record.key, record.value)) =
        (logOf tiles)[offset]?.map (fun content => (offset, content.1, content.2)) := by
  have filed : Filed world
      ((⟨partition.topic, partition.id, baseDir, maxSegmentBytes⟩ : Settings).frame
        syncLevel).baseDir
      maxSegmentBytes tiles := lives.filed
  have reads := Partition.run_read_logOf filed lives.small offset
  rwa [← lives.shape] at reads

end Lives

namespace Logged
variable {keys : String × UInt32 → Prop} {world after : World} {registry : TopicRegistry}
  {partition result : Partition} {logs : String × UInt32 → List Content}

theorem serve (logged : Logged world registry logs) (housed : Housed keys world registry)
    (apart : Apart keys registry.baseDir) (held : registry.actors[sender]? = some partition)
    (same : result.key = partition.key)
    (lives : Lives after registry.baseDir registry.maxSegmentBytes registry.syncLevel result others)
    (outside : World.SameOutside (partitionDir registry.baseDir partition.topic partition.id)
      world after) :
    Logged after (registry.replace sender result)
      (Function.update logs partition.key (logOf others)) where
  lives := by
    intro other member
    rcases housed.owned.mem_replace held member with rfl | ⟨old, differ⟩
    · exact ⟨others, lives, by rw [same, Function.update_self]⟩
    · obtain ⟨tiles, before, listed⟩ := logged.lives other old
      refine ⟨tiles, before.elsewhere outside fun shared => differ ?_, ?_⟩
      · exact apart _ _ _ _ (housed.known other old)
          (housed.known partition (List.mem_of_getElem? held)) shared
      · rw [Function.update_of_ne differ]
        exact listed
  empty := by
    intro topic id missing
    rw [TopicRegistry.find_replace] at missing
    rw [Function.update_of_ne (housed.owned.key_ne missing (List.mem_of_getElem? held)).symm]
    exact logged.empty topic id missing

theorem register {topic : String} {id : UInt32} (logged : Logged world registry logs)
    (housed : Housed keys world registry) (apart : Apart keys registry.baseDir)
    (known : keys (topic, id)) (missing : registry.find topic id = none)
    (fresh : Partition.Fresh world after topic id registry.baseDir registry.maxSegmentBytes
      registry.syncLevel partition) :
    Logged after ((registry.enterTopic topic).register topic id partition) logs where
  lives := by
    intro other member
    rcases List.mem_append.mp member with old | new
    · obtain ⟨tiles, before, listed⟩ := logged.lives other old
      refine ⟨tiles, fresh.elsewhere before fun shared =>
        housed.owned.key_ne missing old ?_, listed⟩
      exact apart _ _ _ _ (housed.known other old) known shared
    · rw [List.mem_singleton.mp new, fresh.key, logged.empty topic id missing]
      exact ⟨_, fresh.lives, rfl⟩
  empty := by
    intro other otherId free
    rw [TopicRegistry.find_register, TopicRegistry.find_enterTopic] at free
    split at free
    · cases free
    · exact logged.empty other otherId free

end Logged

section Clients
variable {ι : Type}

/-- The commands run on one partition, in their order, with their answers. -/
def callsFor (key : String × UInt32) (trace : List (Event ι)) : List (Request × Answer) :=
  trace.filterMap fun
    | .served _ request answer => if request.key = key then some (request.command, answer) else none
    | _ => none

/-- The offsets and contents that were acknowledged for one partition. -/
def receiptsFor (key : String × UInt32) (entries : List (ι × Protocol.Request × Response)) :
    List (Nat × Content) :=
  entries.flatMap fun entry => if entry.2.1.key = key then receipts entry.2.1 entry.2.2 else []

variable {keys : String × UInt32 → Prop} {key : String × UInt32} {state next first final : Hub ι}
  {trace : List (Event ι)} {label : Option (Event ι)} {logs : String × UInt32 → List Content}

private theorem callsFor_append (key : String × UInt32) (trace more : List (Event ι)) :
    callsFor key (trace ++ more) = callsFor key trace ++ callsFor key more := List.filterMap_append

private theorem callsFor_served (key : String × UInt32) (client : ι) (request : Protocol.Request)
    (answer : Answer) : callsFor key [.served client request answer] = if request.key =
      key then [(request.command, answer)] else [] := by
  unfold callsFor
  split <;> simp [*]

private theorem receiptsFor_answers (key : String × UInt32) (trace : List (Event ι)) :
    receiptsFor key (answers trace) = (callsFor key trace).flatMap acknowledged := by
  induction trace with
  | nil => rfl
  | cons event trace ih =>
    cases event with
    | received | responded => exact ih
    | served client request answer =>
      simp only [answers, callsFor, receiptsFor, List.filterMap_cons, List.flatMap_cons] at ih ⊢
      by_cases keyed : request.key = key
      · simp only [if_pos keyed, receipts_respond, List.flatMap_cons, ih]
      · simp only [if_neg keyed, List.nil_append, ih]

/-- What was acknowledged to a client was acknowledged by the task. -/
theorem Balanced.receipts_perm (balanced : Balanced trace state) (key : String × UInt32) :
    ∃ later, (receiptsFor key (responses trace) ++ later).Perm
      ((callsFor key trace).flatMap acknowledged) := by
  obtain ⟨pending, refused, empty, -, perm⟩ := balanced
  have none : receiptsFor key refused = [] := by
    refine List.flatMap_eq_nil_iff.mpr fun entry member => ?_
    rw [empty entry member, ite_self]
  refine ⟨receiptsFor key pending, ?_⟩
  have sides := perm.flatMap_right fun entry =>
    if entry.2.1.key = key then receipts entry.2.1 entry.2.2 else []
  rw [List.flatMap_append, List.flatMap_append] at sides
  change (receiptsFor key _ ++ receiptsFor key _).Perm
    (receiptsFor key _ ++ receiptsFor key _) at sides
  rwa [none, List.append_nil, receiptsFor_answers] at sides

/-- The partitions are as the commands run so far left them. -/
structure Stored (keys : String × UInt32 → Prop) (trace : List (Event ι)) (state : Hub ι)
    (logs : String × UInt32 → List Content) : Prop where
  housed : Housed keys state.world state.registry
  logged : Logged state.world state.registry logs
  explained : ∀ key, LogRun state.registry.maxSegmentBytes (callsFor key trace) (logs key)

private theorem Stored.new {start : World} {baseDir : Path} (maxSegmentBytes : Nat)
    (syncLevel : SyncLevel) (unwritten : Unwritten keys start baseDir) :
    Stored keys [] (Hub.new start baseDir maxSegmentBytes syncLevel : Hub ι) fun _ => [] where
  housed := .new baseDir maxSegmentBytes syncLevel unwritten
  logged := ⟨nofun, fun _ _ _ => rfl⟩
  explained := fun _ => .empty

/-- What a client was told is in the list of the partition. -/
theorem Stored.acknowledged (stored : Stored keys trace state logs)
    (balanced : Balanced trace state) (member : receipt ∈ receiptsFor key (responses trace)) :
    (logs key)[receipt.1]? = some receipt.2 := by
  obtain ⟨later, perm⟩ := balanced.receipts_perm key
  have given := perm.mem_iff.mp (List.mem_append_left later member)
  obtain ⟨call, called, receipt⟩ := List.mem_flatMap.mp given
  exact (stored.explained key).acknowledged called receipt

/-- No offset was given to two clients. -/
theorem Stored.once (stored : Stored keys trace state logs) (balanced : Balanced trace state)
    (key : String × UInt32) : ((receiptsFor key (responses trace)).map Prod.fst).Nodup := by
  obtain ⟨later, perm⟩ := balanced.receipts_perm key
  have offsets := (stored.explained key).acknowledged_ascending.imp Nat.ne_of_lt
  have all := (perm.map Prod.fst).nodup_iff.mpr offsets
  rw [List.map_append] at all
  exact all.of_append_left

/-- Whether a step runs a command. -/
def Serves : Option (Event ι) → Prop
  | some (.served ..) => True
  | _ => False

/-- What a step does to the lists of the partitions. -/
structure Extends (limit : Nat) (label : Option (Event ι))
    (logs grown : String × UInt32 → List Content) : Prop where
  grows : ∀ key, logs key <+: grown key
  served : ∀ client request answer, label = some (.served client request answer) →
    LogStep limit (logs request.key) request.command answer (grown request.key)

private theorem Stored.serve {client : ι} {after : World} {partition result : Partition}
    (stored : Stored keys trace state logs) (coherent : Coherent state)
    (apart : Apart keys state.registry.baseDir) (small : request.command.Small)
    (queued : state.mailboxes sender = (client, request) :: rest)
    (held : state.registry.actors[sender]? = some partition)
    (ran : (partition.serve request.command).run state.world = (.ok (answer, result), after))
    (faultless : ∀ error, answer ≠ .offset (.error (.io error))) :
    ∃ grown, Housed keys after (state.registry.replace sender result) ∧
      Logged after (state.registry.replace sender result) grown ∧
      (∀ key, LogRun state.registry.maxSegmentBytes
        (callsFor key (trace ++ [.served client request answer])) (grown key)) ∧
      Extends state.registry.maxSegmentBytes (some (.served client request answer)) logs grown := by
  have waiting := coherent.mailed client request sender (queued ▸ List.mem_cons_self)
  obtain ⟨owner, there, keyed⟩ :=
    stored.housed.owned.getElem? (coherent.found client request sender (.inr waiting))
  obtain rfl : partition = owner := Option.some.inj (held.symm.trans there)
  have keyed : partition.key = request.key := keyed
  obtain ⟨tiles, lives, listed⟩ := stored.logged.lives partition (List.mem_of_getElem? held)
  rcases (lives.serve_ensures request.command).of_run ran with ⟨error, failed⟩ | ⟨others, same,
    later, outside, taken⟩
  · exact absurd failed (faultless error)
  · rw [listed, keyed] at taken
    refine ⟨_, stored.housed.serve apart held same (later small) outside,
      stored.logged.serve stored.housed apart held same (later small) outside, fun key =>
        ?_, fun key => ?_, ?_⟩
    · rw [callsFor_append, callsFor_served]
      by_cases here : request.key = key
      · subst here
        rw [if_pos rfl, keyed, Function.update_self]
        exact .step (stored.explained request.key) taken
      · rw [if_neg here, List.append_nil, keyed, Function.update_of_ne (Ne.symm here)]
        exact stored.explained key
    · by_cases here : key = partition.key
      · rw [here, Function.update_self, keyed]
        exact taken.grows
      · rw [Function.update_of_ne here]
    · intro other asked given same
      cases same
      rw [keyed, Function.update_self]
      exact taken

/-- A step that runs no command leaves every list as it is. -/
private theorem Stored.unserved (stored : Stored keys trace state logs) (other : ¬ Serves label)
    (site : next.registry.site = state.registry.site)
    (housed : Housed keys next.world next.registry)
    (logged : Logged next.world next.registry logs) :
    ∃ grown, Stored keys (trace ++ label.toList) next grown ∧
      Extends state.registry.maxSegmentBytes label logs grown := by
  refine ⟨logs, ⟨housed, logged, fun key => ?_⟩, fun key => List.prefix_refl _,
    fun client request answer same => absurd (same ▸ trivial) other⟩
  have calls : callsFor key (trace ++ label.toList) = callsFor key trace := by
    rw [callsFor_append]
    cases label with
    | none => exact List.append_nil _
    | some event =>
      cases event with
      | received | responded => exact List.append_nil _
      | served client request answer => exact absurd trivial other
  rw [calls, (Prod.mk.inj (Prod.mk.inj site).2).1]
  exact stored.explained key

variable [DecidableEq ι]

/-- The data directory and the settings are those the broker started with. -/
theorem Hub.Step.site (step : Hub.Step state label next) :
    next.registry.site = state.registry.site := by
  cases step with
  | create missed readDir ran => exact (Creates.of_run ran).site
  | receive | hit | miss | refuse | send | serve | respond | decline => rfl

theorem Hub.Run.site (run : Hub.Run first trace state) :
    state.registry.site = first.registry.site := by
  induction run with
  | start => rfl
  | step run step ih => exact step.site.trans ih

theorem Hub.Run.baseDir (run : Hub.Run first trace state) :
    state.registry.baseDir = first.registry.baseDir :=
  congrArg Prod.fst run.site

private theorem Hub.Step.stored (step : Hub.Step state label next)
    (stored : Stored keys trace state logs) (coherent : Coherent state)
    (apart : Apart keys state.registry.baseDir)
    (asked : ∀ client request, .received client request ∈ (state.clients client).events client →
      keys request.key ∧ request.command.Small) :
    ∃ grown, Stored keys (trace ++ label.toList) next grown ∧
      Extends state.registry.maxSegmentBytes label logs grown := by
  have site := step.site
  cases step with
  | create missed readDir ran =>
    have known := (asked _ _ (by rw [missed]; exact List.mem_singleton.mpr rfl)).1
    have entered := (TopicRegistry.createPartition_ensures readDir fun missing =>
      stored.housed.unwritten _ _ ⟨known, missing⟩).of_run ran
    cases entered with
    | present found => exact stored.unserved not_false site stored.housed stored.logged
    | created missing fresh =>
      exact stored.unserved not_false site (stored.housed.register apart known missing fresh)
        (stored.logged.register stored.housed apart known missing fresh)
  | serve queued held ran faultless =>
    have waiting := coherent.mailed _ _ _ (queued ▸ List.mem_cons_self)
    have small := (asked _ _ (by rw [waiting]; exact List.mem_singleton.mpr rfl)).2
    obtain ⟨grown, housed, logged, explained, extended⟩ :=
      stored.serve coherent apart small queued held ran faultless
    exact ⟨grown, ⟨housed, logged, explained⟩, extended⟩
  | receive | hit | miss | refuse | send | respond | decline =>
    exact stored.unserved not_false site stored.housed stored.logged

/-- What a fetch returns first, if these offsets were acknowledged before it. -/
def Leads (req : FetchRequest) (receipts : List (Nat × Content)) (answer : Answer) : Prop :=
  1 ≤ req.maxBytes.toNat → ∀ receipt ∈ receipts, receipt.1 = req.offset.toNat →
    ∃ record rest, answer = .records (.ok (record :: rest)) ∧ record.offset = receipt.1 ∧
      (record.key, record.value) = receipt.2

/-- A connection that is at this fetch, and has the right answer if it has one. -/
def Phase.Owes (req : FetchRequest) (receipts : List (Nat × Content)) : Phase → Prop
  | .idle => False
  | .missed _ => False
  | .received request => request = .fetch req
  | .routed request _ => request = .fetch req
  | .waiting request _ => request = .fetch req
  | .refused request _ => request = .fetch req ∧ receipts = []
  | .replied request answer => request = .fetch req ∧ Leads req receipts answer

/-- A fetch that has not been answered yet will return what was acknowledged
before it came in. -/
def Owed (trace : List (Event ι)) (state : Hub ι) : Prop :=
  ∀ before reader req between, trace = before ++ .received reader (.fetch req) :: between →
    (∀ request response, .responded reader request response ∉ between) →
      (state.clients reader).Owes req (receiptsFor (req.topic, req.partition) (responses before))

private theorem owes_update {clients : ι → Phase} {reader client : ι} {req : FetchRequest}
    (owes : (clients reader).Owes req given)
    (moved : reader = client → (clients client).Owes req given → phase.Owes req given) :
    (Function.update clients client phase reader).Owes req given := by
  by_cases same : reader = client
  · subst same
    rw [Function.update_self]
    exact moved rfl owes
  · rw [Function.update_of_ne same]
    exact owes

private theorem leads_of_logStep {req : FetchRequest} {log grown : List Content}
    (taken : LogStep limit log (.readBatch req.offset.toNat req.maxBytes.toNat) answer grown)
    (held : ∀ receipt ∈ given, log[receipt.1]? = some receipt.2) : Leads req given answer := by
  cases taken with
  | fetched _ _ records truthful onward first =>
    intro some receipt member here
    obtain ⟨record, rest, rfl, offset, content⟩ := first (Nat.one_le_iff_ne_zero.mp some) receipt.2
      (here ▸ held receipt member)
    exact ⟨record, rest, rfl, offset.trans here.symm, content⟩

/-- A step keeps what is owed, whatever it is, as long as it is not the response. -/
private theorem Hub.Step.owes {reader : ι} {req : FetchRequest} (step : Hub.Step state label next)
    (coherent : Coherent state) (logged : Logged state.world state.registry logs)
    (extended : Extends limit label logs grown)
    (held : ∀ receipt ∈ given, (logs (req.topic, req.partition))[receipt.1]? = some receipt.2)
    (owes : (state.clients reader).Owes req given)
    (quiet : ∀ request response, label ≠ some (.responded reader request response)) :
    (next.clients reader).Owes req given := by
  cases step with
  | receive client request ready decoded =>
    refine owes_update owes fun _ here => ?_
    rw [ready] at here
    exact here.elim
  | hit asked found =>
    refine owes_update owes fun _ here => ?_
    rw [asked] at here
    exact here
  | miss asked creates missing =>
    refine owes_update owes fun _ here => ?_
    rw [asked] at here
    obtain rfl := here
    exact creates.elim
  | refuse asked reads failed =>
    refine owes_update owes fun _ here => ?_
    rw [asked] at here
    obtain rfl := here
    refine ⟨rfl, List.eq_nil_iff_forall_not_mem.mpr fun receipt member => ?_⟩
    have missing : state.registry.find req.topic req.partition = none := by
      unfold TopicRegistry.getPartition at failed
      split at failed
      · cases failed
      · assumption
    have stored := held receipt member
    rw [logged.empty _ _ missing] at stored
    cases stored
  | create missed readDir ran =>
    refine owes_update owes fun _ here => ?_
    rw [missed] at here
    exact here.elim
  | send routed =>
    refine owes_update owes fun _ here => ?_
    change Phase.Owes _ _ (state.clients _) at here
    rw [routed] at here
    exact here
  | serve queued atTask ran faultless =>
    refine owes_update owes fun _ here => ?_
    have waiting := coherent.mailed _ _ _ (queued ▸ List.mem_cons_self)
    change Phase.Owes _ _ (state.clients _) at here
    rw [waiting] at here
    obtain rfl := here
    exact ⟨rfl, leads_of_logStep (extended.served _ _ _ rfl) held⟩
  | respond | decline =>
    refine owes_update owes fun same _ => ?_
    subst same
    exact absurd rfl (quiet _ _)

private theorem Hub.Step.owed (step : Hub.Step state label next) (coherent : Coherent state)
    (stored : Stored keys trace state logs) (balanced : Balanced trace state)
    (extended : Extends limit label logs grown) (owed : Owed trace state) :
    Owed (trace ++ label.toList) next := by
  intro before reader req between split quiet
  -- either the fetch has just come in, or it was there before the step
  have ways : (label = some (.received reader (.fetch req)) ∧ trace = before) ∨
      ∃ earlier, trace = before ++ .received reader (.fetch req) :: earlier ∧
        (∀ event ∈ earlier, event ∈ between) ∧
        ∀ request response, label ≠ some (.responded reader request response) := by
    cases label with
    | none =>
      rw [Option.toList_none, List.append_nil] at split
      exact .inr ⟨between, split, fun _ member => member, nofun⟩
    | some event =>
      rcases List.eq_nil_or_concat between with rfl | ⟨earlier, last, rfl⟩
      · obtain ⟨same, added⟩ := List.append_inj' split rfl
        cases added
        exact .inl ⟨rfl, same⟩
      · rw [List.concat_eq_append, ← List.cons_append, ← List.append_assoc] at split
        obtain ⟨same, added⟩ := List.append_inj' split rfl
        cases added
        refine .inr ⟨earlier, same, fun _ member => by simp [member],
          fun request response answered => ?_⟩
        cases answered
        exact quiet request response (by simp)
  rcases ways with ⟨rfl, rfl⟩ | ⟨earlier, rfl, inside, silent⟩
  · cases step with
    | receive client request ready decoded => simp [Hub.advance, Phase.Owes]
  · refine step.owes coherent stored.logged extended (fun receipt member => ?_)
      (owed before reader req earlier rfl fun request response member =>
        quiet request response (inside _ member)) silent
    refine stored.acknowledged balanced ?_
    obtain ⟨entry, given, receipt⟩ := List.mem_flatMap.mp member
    refine List.mem_flatMap.mpr ⟨entry, ?_, receipt⟩
    rw [responses, List.filterMap_append]
    exact List.mem_append_left _ given

section Run
variable {start : World} {baseDir : Path} {maxSegmentBytes : Nat} {syncLevel : SyncLevel}

/-- Every run keeps its partitions and owes its clients what it told them. -/
theorem Hub.Run.kept (run : Hub.Run (.new start baseDir maxSegmentBytes syncLevel) trace state)
    (unwritten : Unwritten keys start baseDir) (apart : Apart keys baseDir)
    (known : ∀ client request, .received client request ∈ trace → keys request.key) :
    ∃ logs, Stored keys trace state logs ∧ Owed trace state := by
  have fresh := Coherent.new (ι := ι) start baseDir maxSegmentBytes syncLevel
  induction run with
  | start =>
    exact ⟨_, .new maxSegmentBytes syncLevel unwritten,
      fun before _ _ _ split _ => by simp at split⟩
  | @step trace state label next run step ih =>
    obtain ⟨logs, stored, owed⟩ := ih fun client request member =>
      known client request (List.mem_append_left _ member)
    have asked (client : ι) (request : Protocol.Request)
        (shown : .received client request ∈ (state.clients client).events client) :
        keys request.key ∧ request.command.Small := by
      have member := (run.conversed fresh (fun _ => rfl) client).received_mem shown
      exact ⟨known client request (List.mem_append_left _ member),
        (run.decoded fresh member).small_command⟩
    obtain ⟨grown, later, extended⟩ :=
      step.stored stored (run.coherent fresh) (run.baseDir ▸ apart) asked
    exact ⟨grown, later, step.owed (run.coherent fresh) stored
      (run.balanced fresh fun _ => rfl) extended owed⟩

/-- Every response a run shows was sent from a state of that run. -/
theorem Hub.Run.exists_step {before later : List (Event ι)} {event : Event ι}
    (run : Hub.Run first trace final) (split : trace = before ++ event :: later) :
    ∃ state next, Hub.Run first before state ∧ Hub.Step state (some event) next := by
  induction run generalizing later with
  | start => simp at split
  | @step trace state label next run step ih =>
    cases label with
    | none =>
      rw [Option.toList_none, List.append_nil] at split
      exact ih split
    | some shown =>
      rcases List.eq_nil_or_concat later with rfl | ⟨earlier, last, rfl⟩
      · obtain ⟨rfl, added⟩ := List.append_inj' split rfl
        cases added
        exact ⟨state, next, run, step⟩
      · rw [List.concat_eq_append, ← List.cons_append, ← List.append_assoc] at split
        exact ih (List.append_inj' split rfl).1

/-- A response carries the number of its request. -/
theorem Hub.Run.correlated {client : ι} (run : Hub.Run first trace state)
    (answered : .responded client request response ∈ trace) :
    response.correlationId = request.correlationId := by
  obtain ⟨before, later, split⟩ := List.append_of_mem answered
  obtain ⟨middle, next, -, step⟩ := run.exists_step split
  cases step with
  | respond replied => exact request.correlationId_respond _
  | decline refused => rfl

/-- A fetch returns first what was acknowledged before it came in. -/
theorem Hub.Run.fetched {before between later : List (Event ι)} {reader : ι} {req : FetchRequest}
    {response : Response} {receipt : Nat × Content}
    (run : Hub.Run (.new start baseDir maxSegmentBytes syncLevel) trace state)
    (unwritten : Unwritten keys start baseDir) (apart : Apart keys baseDir)
    (known : ∀ client request, .received client request ∈ trace → keys request.key)
    (split : trace =
      before ++ .received reader (.fetch req) ::
        (between ++ .responded reader (.fetch req) response :: later))
    (quiet : ∀ request response, .responded reader request response ∉ between)
    (some : 1 ≤ req.maxBytes.toNat)
    (given : receipt ∈ receiptsFor (req.topic, req.partition) (responses before))
    (same : receipt.1 = req.offset.toNat) :
    ∃ record rest, response = .fetch ⟨req.correlationId, req.topic, req.partition,
      fetchPayload (record :: rest)⟩ ∧ record.offset = receipt.1 ∧
      (record.key, record.value) = receipt.2 := by
  rw [← List.cons_append, ← List.append_assoc] at split
  obtain ⟨middle, next, upTo, step⟩ := run.exists_step split
  obtain ⟨-, -, owed⟩ := upTo.kept unwritten apart fun client request member =>
    known client request (by rw [split]; exact List.mem_append_left _ member)
  have owes := owed before reader req between rfl quiet
  cases step with
  | respond replied =>
    rw [replied] at owes
    obtain ⟨record, rest, rfl, offset, content⟩ := owes.2 some receipt given same
    exact ⟨record, rest, rfl, offset, content⟩
  | decline refused =>
    rw [refused] at owes
    rw [owes.2] at given
    cases given

end Run

/-- The only things that can keep everybody waiting: a call that fails, and a
counter that runs over. -/
inductive Obstructed (state : Hub ι) : Prop
  | opening {changed : TopicRegistry} {after : World}
      (missed : state.clients client = .missed request) (readDir : Path → List Name)
      (ran : (state.registry.createPartition readDir request.key.1 request.key.2).run state.world =
        (.ok (.error (.io error), changed), after)) : Obstructed state
  | serving {after : World} (queued : state.mailboxes sender = (client, request) :: rest)
      (held : state.registry.actors[sender]? = some partition)
      (ran : (partition.serve request.command).run state.world =
        (.ok (.offset (.error (.io error)), result), after)) :
      Obstructed state
  | counting (queued : state.mailboxes sender = (client, request) :: rest)
      (held : state.registry.actors[sender]? = some partition)
      (overflow : Segment.Overflows state.registry.maxSegmentBytes partition.nextOffset
        request.command.count) :
      Obstructed state

/-- As long as a connection waits for something, something can be done. -/
theorem Stored.progress {client : ι} (stored : Stored keys trace state logs)
    (coherent : Coherent state)
    (asked : ∀ client request, .received client request ∈ (state.clients client).events client →
      keys request.key) (busy : state.clients client ≠ .idle) :
    Obstructed state ∨
      ∃ label next, Hub.Step state label next ∧
      ∀ other request, label ≠ some (.received other request) := by
  cases phase : state.clients client with
  | idle => exact absurd phase busy
  | received request =>
    cases found : state.registry.find request.key.1 request.key.2 with
    | some sender => exact .inr ⟨_, _, .hit phase found, nofun⟩
    | none =>
      cases request with
      | produce | produceBatch => exact .inr ⟨_, _, .miss phase trivial found, nofun⟩
      | fetch req =>
        have failed : state.registry.getPartition req.topic req.partition =
            .error (.partitionNotFound req.topic req.partition) := by
          unfold TopicRegistry.getPartition
          rw [show state.registry.find req.topic req.partition = none from found]
        exact .inr ⟨_, _, .refuse phase not_false failed, nofun⟩
  | missed request =>
    have known := asked client request (by rw [phase]; exact List.mem_singleton.mpr rfl)
    obtain ⟨reply, after, ran, entered⟩ :=
      (TopicRegistry.createPartition_ensures (fun _ => []) fun missing =>
      stored.housed.unwritten _ _ ⟨known, missing⟩).returns not_false
    cases entered with
    | failed error changed => exact .inl (.opening phase _ ran)
    | present found => exact .inr ⟨_, _, .create phase _ ran, nofun⟩
    | created missing fresh => exact .inr ⟨_, _, .create phase _ ran, nofun⟩
  | refused request error => exact .inr ⟨_, _, .decline phase, nofun⟩
  | routed request sender => exact .inr ⟨_, _, .send phase, nofun⟩
  | waiting request sender =>
    obtain ⟨⟨head, command⟩, rest, queued⟩ := List.exists_cons_of_ne_nil
      (List.ne_nil_of_mem (coherent.posted client request sender phase))
    obtain ⟨partition, held, -⟩ :=
      stored.housed.owned.getElem? (coherent.found client request sender (.inr phase))
    obtain ⟨tiles, lives⟩ := stored.housed.lives partition (List.mem_of_getElem? held)
    by_cases overflow :
      Segment.Overflows state.registry.maxSegmentBytes partition.nextOffset command.command.count
    · exact .inl (.counting queued held overflow)
    · rw [lives.nextOffset_eq, length_logOf] at overflow
      obtain ⟨⟨answer, result⟩, after, ran, ended⟩ :=
        (lives.serve_ensures command.command).returns overflow
      by_cases fault : ∃ error, answer = .offset (.error (.io error))
      · obtain ⟨error, rfl⟩ := fault
        exact .inl (.serving queued held ran)
      · exact .inr ⟨_, _, .serve queued held ran fun error same => fault ⟨error, same⟩, nofun⟩
  | replied request answer => exact .inr ⟨_, _, .respond phase, nofun⟩

/-- What the clients of a partition can rely on, with the list it holds and where
each command's part of it starts. -/
structure Accounted (trace : List (Event ι)) (key : String × UInt32) (world : World)
    (partition : Partition) (log : List Content) (bound : Nat → Nat) : Prop where
  next : partition.nextOffset = log.length
  reads : ∀ offset, ∃ found result,
    (partition.read offset).run world = (.ok (.ok found, result), world) ∧
    found.map (fun record => (record.offset, record.key, record.value)) =
      log[offset]?.map (fun content => (offset, content.1, content.2))
  spans : Spans (callsFor key trace) log bound
  disjoint : ∀ earlier later, earlier < later → later < (callsFor key trace).length →
    bound (earlier + 1) ≤ bound later
  cover : ∀ offset < log.length, ∃ place < (callsFor key trace).length, bound place ≤ offset ∧
    offset < bound (place + 1)
  once : ((receiptsFor key (responses trace)).map Prod.fst).Nodup
  stored : ∀ receipt ∈ receiptsFor key (responses trace), log[receipt.1]? = some receipt.2

/-- What all clients together can rely on. -/
structure Reliable (trace : List (Event ι)) (state : Hub ι) : Prop where
  accounted : ∀ topic id sender, state.registry.find topic id = some sender → ∃ partition log bound,
    state.registry.actors[sender]? = some partition ∧ partition.key = (topic, id) ∧
      Accounted trace (topic, id) state.world partition log bound
  registered : ∀ topic id, state.registry.find topic id = none →
    receiptsFor (topic, id) (responses trace) = []
  fetched : ∀ before reader req between response later,
    trace = before ++ .received reader (.fetch req) ::
      (between ++ .responded reader (.fetch req) response :: later) →
      (∀ request response, .responded reader request response ∉ between) → 1 ≤ req.maxBytes.toNat →
        ∀ receipt ∈ receiptsFor (req.topic, req.partition) (responses before),
          receipt.1 = req.offset.toNat → ∃ record rest,
            response = .fetch ⟨req.correlationId, req.topic, req.partition,
              fetchPayload (record :: rest)⟩ ∧
            record.offset = receipt.1 ∧ (record.key, record.value) = receipt.2
  conversed : ∀ client, Conversed client (eventsOf client trace) (state.clients client)
  correlated : ∀ client request response, .responded client request response ∈ trace →
    response.correlationId = request.correlationId
  coherent : Coherent state
  progress : ∀ client, state.clients client ≠ .idle → Obstructed state ∨
    ∃ label next, Hub.Step state label next ∧
    ∀ other request, label ≠ some (.received other request)

/-- However sends, commands and replies interleave: the commands run on a
partition wrote consecutive spans that make up exactly the offsets below the next
one, a command that succeeded all of its span and a failed batch a first part;
no offset is acknowledged twice and each holds what was acknowledged; a fetch that
comes in after an acknowledgement returns that record first; every connection gets
one response to each of its requests, in their order, with their number; and
nobody waits while nothing can be done. -/
theorem concurrent_clients_reliable {start : World} {baseDir : Path} {maxSegmentBytes : Nat}
    {syncLevel : SyncLevel} (unwritten : Unwritten keys start baseDir) (apart : Apart keys baseDir)
    (run : Hub.Run (.new start baseDir maxSegmentBytes syncLevel) trace state)
    (known : ∀ client request, .received client request ∈ trace → keys request.key) :
    Reliable trace state := by
  have fresh := Coherent.new (ι := ι) start baseDir maxSegmentBytes syncLevel
  have coherent := run.coherent fresh
  have conversed := run.conversed fresh fun _ => rfl
  have balanced := run.balanced fresh fun _ => rfl
  obtain ⟨logs, stored, -⟩ := run.kept unwritten apart known
  constructor
  case accounted =>
    intro topic id sender found
    obtain ⟨partition, held, keyed⟩ := stored.housed.owned.getElem? found
    obtain ⟨tiles, lives, listed⟩ := stored.logged.lives partition (List.mem_of_getElem? held)
    obtain ⟨bound, spans⟩ := (stored.explained (topic, id)).spans
    rw [keyed] at listed
    refine ⟨partition, logs (topic, id), bound, held, keyed, ?_⟩
    constructor
    case next => rw [← listed, lives.nextOffset_eq]
    case reads => exact listed ▸ lives.run_read
    case spans => exact spans
    case disjoint =>
      exact fun earlier later order inside => spans.bound_mono order (Nat.le_of_lt inside)
    case cover => exact spans.cover
    case once => exact stored.once balanced (topic, id)
    case stored => exact fun receipt member => stored.acknowledged balanced member
  case registered =>
    intro topic id missing
    refine List.eq_nil_iff_forall_not_mem.mpr fun receipt member => ?_
    have held := stored.acknowledged balanced member
    rw [stored.logged.empty topic id missing] at held
    cases held
  case fetched =>
    exact fun before reader req between response later split quiet some receipt given same =>
      run.fetched unwritten apart known split quiet some given same
  case conversed => exact conversed
  case correlated => exact fun client request response answered => run.correlated answered
  case coherent => exact coherent
  case progress =>
    exact fun client busy => stored.progress coherent
      (fun other request shown => known other request ((conversed other).received_mem shown)) busy

end Clients

/-- Two connections race for a partition that is not there yet; one of them has
its response while the other still waits. -/
theorem concurrent_clients_reliable_race :
    let first : Protocol.Request := .produce ⟨1, "t", 0, [7]⟩
    let second : Protocol.Request := .produce ⟨2, "t", 0, [8]⟩
    let trace : List (Event Bool) := [.received false first, .received true second,
      .served false first (.offset (.ok 0)), .responded false first (.produce ⟨1, "t", 0, 0⟩)]
    ∃ state, Hub.Run (.new blankWorld [] 100 .none) trace state ∧
      state.clients true = .waiting second 0 ∧ Reliable trace state := by
  intro first second trace
  have decoded (request : Protocol.Request) (accepted : Frame.decode request.intoFrame.encode =
      some (.ok (some request.intoFrame), []))
      (read : Request.fromFrame request.intoFrame = some (.ok request)) : request.Decoded :=
      ⟨_, _, _, accepted, read⟩
  obtain ⟨partition, laid, result, after, tiles, stamp, opened, served, -⟩ :=
    exists_first_append "t" 0 [] 100 .none [7] (by decide) (by decide) (by decide)
  have run : Hub.Run (.new blankWorld [] 100 .none : Hub Bool) [] _ := .start
  have run := run.step (.receive false first rfl
    (decoded _ (by decide +kernel) (by decide +kernel)))
  have run := run.step (.receive true second rfl
    (decoded _ (by decide +kernel) (by decide +kernel)))
  have run := run.step (show Hub.Step _ none (Hub.advance _ false (.missed first)) from
    .miss rfl trivial rfl)
  have run := run.step (show Hub.Step _ none (Hub.advance _ true (.missed second)) from
    .miss rfl trivial rfl)
  have run := run.step (show Hub.Step _ none (Hub.advance _ false (.routed first 0)) from
    .create rfl (fun _ => []) (Program.run_bind_of_run opened _))
  have run := run.step (show Hub.Step _ none (Hub.advance _ true (.routed second 0)) from
    .create rfl (fun _ => []) rfl)
  have run := run.step (show Hub.Step _ none
    (Hub.advance _ false (.waiting first 0)) from .send rfl)
  have run := run.step (show Hub.Step _ none
    (Hub.advance _ true (.waiting second 0)) from .send rfl)
  have run := run.step (show Hub.Step _ _
    (Hub.advance _ false (.replied first (.offset (.ok 0)))) from
      .serve (show Hub.mailboxes _ 0 = _ :: [(true, second)] from rfl) rfl served nofun)
  have run := run.step (show Hub.Step _ (some (.responded false first _)) _ from .respond rfl)
  refine ⟨_, run, rfl, ?_⟩
  have unwritten : Unwritten (· = ("t", 0)) blankWorld [] := fun _ _ _ _ => rfl
  have apart : Apart (· = ("t", 0)) [] := fun _ _ _ _ one other _ => one.trans other.symm
  have known : ∀ client request, Event.received client request ∈ trace →
      request.key = ("t", 0) := by
    intro client request member
    simp only [trace, List.mem_cons, Event.received.injEq, reduceCtorEq, List.not_mem_nil,
      or_false] at member
    rcases member with ⟨-, rfl⟩ | ⟨-, rfl⟩ <;> rfl
  exact concurrent_clients_reliable unwritten apart run known

end Ruka
