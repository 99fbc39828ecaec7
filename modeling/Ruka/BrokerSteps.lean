import Ruka.BrokerDisks

/-! A broker at work on a machine that stops. The tasks of its partitions and the
creation of a new one take turns call by call, in any order. Each stays in its own
directory, so what becomes of a partition does not depend on the others. -/
namespace Ruka
open BigEndian LexicalPaths FilePrograms FilePrograms.Cached DecimalNames

/-- What a `BrokerCommand` can ask for; a single read is not among them. -/
def Request.IsCommand : Request → Prop
  | .read _ => False
  | _ => True

/-- A broker while it runs: what each task has yet to do of the command it took from
its channel, and the creation that is under way behind the write lock. -/
structure Process where
  registry : TopicRegistry
  work : Nat → Option (Request × Program (Answer × Partition))
  opening : Option ((String × UInt32) × Program (Except RukaError Partition))

/-- What goes on with one partition. -/
inductive Status where
  | absent
  | opening (rest : Program (Except RukaError Partition))
  | idle (partition : Partition)
  | busy (request : Request) (rest : Program (Answer × Partition))

namespace Status

def request : Status → Option Request
  | .busy request _ => some request
  | _ => none

/-- The records that may be written when the machine stops. -/
def contents : Status → List Content
  | .busy request _ => request.contents
  | _ => []

end Status

/-- What happens to a broker. -/
inductive Incident where
  | loaded (rebuilt : String × UInt32 → Nat → Prop)
  | stalled (rebuilt : String × UInt32 → Nat → Prop)
  | answered (key : String × UInt32) (request : Request) (answer : Answer)
  | stopped (underWay : String × UInt32 → Option Request)
  | closed

/-- What that is for one partition. -/
def Incident.happenings (key : String × UInt32) : Incident → List Happening
  | .loaded rebuilt => [.opened (rebuilt key)]
  | .stalled rebuilt => [.stalled (rebuilt key)]
  | .answered other request answer => if other = key then [.answered request answer] else []
  | .stopped underWay => [(underWay key).elim .stopped .interrupted]
  | .closed => [.closed]

namespace Process

/-- A broker that has just been started. -/
def started (registry : TopicRegistry) : Process := ⟨registry, fun _ => none, none⟩

/-- What is left to do of the creation of this partition. -/
def creation (process : Process) (key : String × UInt32) :
    Option (Program (Except RukaError Partition)) :=
  process.opening.bind fun entry => if entry.1 = key then some entry.2 else none

def status (process : Process) (key : String × UInt32) : Status :=
  match process.registry.find key.1 key.2 with
  | none => (process.creation key).elim .absent .opening
  | some sender =>
    match process.work sender with
    | some (request, rest) => .busy request rest
    | none => process.registry.actors[sender]?.elim .absent .idle

/-- A task goes on with another rest of its command. -/
def setWork (process : Process) (sender : Nat)
    (rest : Option (Request × Program (Answer × Partition))) : Process :=
  { process with work := Function.update process.work sender rest }

def setOpening (process : Process)
    (opening : Option ((String × UInt32) × Program (Except RukaError Partition))) : Process :=
  { process with opening := opening }

def setRegistry (process : Process) (registry : TopicRegistry) : Process :=
  { process with registry := registry }

@[simp] theorem work_setWork (process : Process) (sender : Nat)
    (rest : Option (Request × Program (Answer × Partition))) :
    (process.setWork sender rest).work = Function.update process.work sender rest := rfl

/-- The call a task or the creation makes next. -/
inductive Calls (process : Process) : Call → Prop
  | task {call : Call} {next : call.Reply → Program (Answer × Partition)}
      (busy : process.work sender = some (request, .call call next)) : Calls process call
  | opening {key : String × UInt32} {call : Call}
      {next : call.Reply → Program (Except RukaError Partition)}
      (opening : process.opening = some (key, .call call next)) : Calls process call

/-- One task, or the creation, takes one step. The creation holds the write lock,
so there is one at a time, and it has looked for the key again. -/
inductive Step {lossy : Prop} (state : Cached lossy) (process : Process) :
    List Incident → Cached lossy → Process → Prop
  -- `rx.recv().await` hands the task of a partition its next command
  | take {partition : Partition} (held : process.registry.actors[sender]? = some partition)
      (idle : process.work sender = none) (admits : partition.Admits request)
      (command : request.IsCommand) :
      Step state process [] state (process.setWork sender (some (request, partition.serve request)))
  | work {call : Call} {next : call.Reply → Program (Answer × Partition)}
      (busy : process.work sender = some (request, .call call next)) :
      Step state process [] (state.called call)
        (process.setWork sender (some (request, next (perform call state.world).1)))
  -- `reply.send(res)`, after which the task waits for another command
  | answer {partition result : Partition} (held : process.registry.actors[sender]? = some partition)
      (busy : process.work sender = some (request, .done (answer, result))) :
      Step state process [.answered partition.key request answer] state
        ((process.setWork sender none).setRegistry (process.registry.replace sender result))
  | enter {key : String × UInt32} (plain : Plain key.1.toList)
      (missing : process.registry.find key.1 key.2 = none) (free : process.opening = none)
      (readDir : Path → List Name)
      (enumerates : Enumerates state.world (partitionDir process.registry.baseDir key.1 key.2)
        (readDir (partitionDir process.registry.baseDir key.1 key.2))) :
      Step state process [] state
        (process.setOpening (some (key, process.registry.openPartition readDir key.1 key.2)))
  | create {key : String × UInt32} {call : Call}
      {next : call.Reply → Program (Except RukaError Partition)}
      (opening : process.opening = some (key, .call call next)) :
      Step state process [] (state.called call)
        (process.setOpening (some (key, next (perform call state.world).1)))
  -- the sender goes into the map and the lock is released
  | settle {key : String × UInt32} {answer : Except RukaError Partition}
      (opening : process.opening = some (key, .done answer)) :
      Step state process [] state
        ((process.setOpening none).setRegistry
          ((process.registry.enterTopic key.1).settle key.1 key.2 answer).2)

end Process

/-! ## One partition among others -/

private theorem Ledger.eq_of_log_nil {first second : Ledger} (nothing : first.log = [])
    (same : second.log = []) : first = second := by
  have empty {ledger : Ledger} (nothing : ledger.log = []) (offset : Nat) :
      ¬ ledger.found offset := by
    intro found
    have within := ledger.within offset found
    simp [nothing] at within
  ext offset
  · rw [nothing, same]
  · exact iff_of_false (empty nothing offset) (empty same offset)
  · exact iff_of_false (fun sure => empty nothing offset (first.sure_found offset sure))
      fun sure => empty same offset (second.sure_found offset sure)

variable {lossy : Prop} {state after : Cached lossy} {site : Site} {ledger : Ledger}
  {ledgers : Address → Ledger} {process changed : Process} {address other : Address}
  {status : Status}

namespace Site

def frame (site : Site) (address : Address) : Partition := (site.settings address).frame site.level

/-- An open partition, its directory and the ledger agree. -/
def Holds (site : Site) (address : Address) (ledger : Ledger) (state : Cached lossy)
    (partition : Partition) : Prop :=
  ∃ patches, partition = (site.frame address).withPatches patches ∧
    Running ledger state (site.dir address) site.maxSegmentBytes patches

end Site

/-- What becomes of a partition is what its ledger allows, whatever happens elsewhere. -/
def Fares (site : Site) (address : Address) (ledger : Ledger) (state : Cached lossy) : Status → Prop
  | .absent => Vacant state.world (site.dir address) ∧ ledger.log = []
  | .opening rest => ledger.log = [] ∧ rest.Endures (site.dir address) state
      (fun disk => Resting (site.settings address) ledger (settled lossy disk))
      fun reply after =>
        ∃ partition, reply = .ok partition ∧ site.Holds address ledger after partition
  | .idle partition => site.Holds address ledger state partition
  | .busy request rest =>
    state.world.HasDirectory (site.dir address) ∧ rest.Endures (site.dir address) state
      (Recoverable lossy ledger.sure (site.dir address) site.maxSegmentBytes ledger.log
        request.contents)
      fun reply after =>
        ∃ later, ledger.Answers site.maxSegmentBytes (lossy → site.level = .logAndIndex) request
          reply.1 later ∧ site.Holds address later after reply.2

/-- What a stop leaves of a partition. -/
def Lands (site : Site) (address : Address) (ledger : Ledger) (lossy : Prop)
    (contents : List Content) (disk : World) : Prop :=
  ∃ more, more <+: contents ∧ Resting (site.settings address) (ledger.stop more fun _ => False)
    (settled lossy disk)

theorem Resting.lands {disk : World}
    (resting : Resting (site.settings address) ledger (settled lossy disk)) :
    Lands site address ledger lossy [] disk :=
  ⟨[], List.prefix_refl _, resting.of_imp (List.append_nil _) fun _ held => held.1⟩

private theorem Recoverable.lands {disk : World} {contents : List Content}
    (recoverable : Recoverable lossy ledger.sure (site.dir address) site.maxSegmentBytes ledger.log
      contents disk) :
    Lands site address ledger lossy contents disk := by
  obtain ⟨tiles, frayed, ⟨more, low⟩, high⟩ := recoverable
  rw [← low] at high
  exact ⟨more, (List.prefix_append_right_inj _).mp high,
    .inr ⟨tiles, frayed.of_imp fun _ held => held.1, low.symm⟩⟩

/-- The ledger takes that step. -/
theorem Lands.step {disk : World} (lands : Lands site address ledger lossy status.contents disk) :
    ∃ later, Ledger.Step site.maxSegmentBytes lossy site.level ledger
      (status.request.elim .stopped .interrupted) later ∧
      Resting (site.settings address) later (settled lossy disk) := by
  obtain ⟨more, part, resting⟩ := lands
  refine ⟨_, ?_, resting⟩
  cases status with
  | busy request rest => exact .interrupted request more part
  | absent | opening _ | idle _ =>
    obtain rfl := List.prefix_nil.mp part
    exact .stopped

private theorem Site.Holds.agrees {partition : Partition}
    (holds : site.Holds address ledger state partition)
    (agrees : Agrees (site.dir address) state after) :
    site.Holds address ledger after partition := by
  obtain ⟨patches, shape, running⟩ := holds
  exact ⟨patches, shape, running.agrees agrees⟩

private theorem Partition.in_withPatches (partition : Partition) (patches : List Patch) :
    (partition.withPatches patches).In partition.baseDir := by
  refine ⟨rfl, fun segment listed => ?_⟩
  obtain ⟨patch, -, rfl⟩ := List.mem_map.mp listed
  exact ⟨⟨_, rfl⟩, ⟨_, rfl⟩⟩

namespace Fares

/-- Another partition's task makes a call, or is stopped inside one. -/
theorem wait (fares : Fares site address ledger state status)
    (elsewhere : Elsewhere (site.dir other) state after) (differ : other ≠ address)
    (present : (∃ rest, status = .opening rest) → state.world.HasDirectory (site.dir other)) :
    Fares site address ledger after status := by
  have aside := site.aside differ
  cases status with
  | absent => exact ⟨fares.1.elsewhere elsewhere aside, fares.2⟩
  | opening rest =>
    exact ⟨fares.1, fares.2.wait (elsewhere.agrees aside (.inl (present ⟨rest, rfl⟩)))⟩
  | idle partition =>
    have holds : site.Holds address ledger state partition := fares
    obtain ⟨patches, -, running⟩ := id holds
    exact holds.agrees (elsewhere.agrees aside (.inr running.frayed.directory))
  | busy request rest =>
    obtain ⟨directory, endures⟩ := fares
    have agrees := elsewhere.agrees aside (.inr directory)
    refine ⟨fun path below above => ?_, endures.wait agrees⟩
    exact (agrees path (.inl above)).node.trans (directory path below above)

/-- The machine stops. -/
theorem lands (fares : Fares site address ledger state status) :
    state.Safe (Lands site address ledger lossy status.contents) := by
  intro disk survives
  cases status with
  | absent =>
    have resting : Resting (site.settings address) ledger state := .inl fares
    exact (resting.survives survives).lands
  | opening rest => exact (fares.2.safe disk survives).lands
  | idle partition =>
    obtain ⟨patches, -, running⟩ := fares
    have resting : Resting (site.settings address) ledger state := running.resting
    exact (resting.survives survives).lands
  | busy request rest => exact (fares.2.safe disk survives).lands

/-- The task takes a command. -/
theorem take (careful : lossy → site.level ≠ .none) {partition : Partition}
    (fares : Fares site address ledger state (.idle partition))
    (admits : partition.Admits request) :
    Fares site address ledger state (.busy request (partition.serve request)) := by
  obtain ⟨patches, rfl, running⟩ := fares
  have inside : ((site.frame address).withPatches patches).In (site.dir address) :=
    Partition.in_withPatches (site.frame address) patches
  refine ⟨running.frayed.directory, ?_, fun middle agrees => ?_, Recoverable.seen _ _ _ _ _ _, ?_⟩
  · exact (Partition.makes_serve inside request).mono fun _ _ => trivial
  · refine (Course.weathers_call careful (running.agrees agrees) admits).mono ?_
    rintro reply after - ⟨later, others, answers, shape, still⟩
    exact ⟨later, answers, others, shape, still⟩
  · rintro reply before after agrees ⟨later, answers, holds⟩
    exact ⟨later, answers, holds.agrees agrees⟩

/-- The partition is created. -/
theorem enter (fares : Fares site address ledger state .absent) (readDir : Path → List Name)
    (enumerates : Enumerates state.world (site.dir address) (readDir (site.dir address))) :
    Fares site address ledger state
      (.opening ((site.settings address).openOrCreate readDir site.level)) := by
  obtain ⟨vacant, nothing⟩ := fares
  refine ⟨nothing, ?_, fun middle agrees => ?_, Resting.seen _ _ _, ?_⟩
  · exact (Partition.makes_openOrCreate ..).mono fun _ _ => trivial
  · have same (path : Path) (near : Near (site.dir address) path) := (agrees path near).node
    have resting : Resting (site.settings address) ledger middle :=
      .inl ⟨Vacant.near vacant same, nothing⟩
    have opened := ((site.settings address).completes_openOrCreate readDir site.level resting
      (enumerates.of_nodes fun name => same _ (.inr ⟨name, rfl⟩))).weathers
    -- nothing is in the log, so nothing of it can be lost
    have stopped (lost : Nat → Prop) : ledger.stop [] lost = ledger :=
      Ledger.eq_of_log_nil ((List.append_nil _).trans nothing) nothing
    have reopened (lost : Nat → Prop) : ledger.reopen lossy lost = ledger :=
      Ledger.eq_of_log_nil nothing nothing
    rw [stopped, reopened] at opened
    refine opened.mono ?_
    rintro reply after - ⟨patches, rfl, running⟩
    exact ⟨_, rfl, patches, rfl, running⟩
  · rintro reply before after agrees ⟨partition, rfl, holds⟩
    exact ⟨partition, rfl, holds.agrees agrees⟩

end Fares

/-! ## The whole broker -/

namespace Process
variable {key own : String × UInt32} {rest : Program (Except RukaError Partition)}

private theorem creation_self (opening : process.opening = some (key, rest)) :
    process.creation key = some rest := by
  simp [creation, opening]

private theorem creation_ne (opening : process.opening = some (own, rest)) (differ : own ≠ key) :
    process.creation key = none := by
  simp [creation, opening, differ]

theorem creation_none (free : process.opening = none) (key : String × UInt32) :
    process.creation key = none := by
  simp [creation, free]

theorem status_missing (missing : process.registry.find key.1 key.2 = none) :
    process.status key = (process.creation key).elim .absent .opening := by
  rw [status, missing]

theorem status_task {partition : Partition}
    (found : process.registry.find key.1 key.2 = some sender)
    (held : process.registry.actors[sender]? = some partition) :
    process.status key = (process.work sender).elim (.idle partition) fun entry =>
      .busy entry.1 entry.2 := by
  rw [status, found]
  simp only [held]
  cases process.work sender <;> rfl

/-- Steps of other partitions do not show. -/
theorem status_congr (find : changed.registry.find key.1 key.2 = process.registry.find key.1 key.2)
    (creation : changed.creation key = process.creation key)
    (tasks : ∀ sender, process.registry.find key.1 key.2 = some sender →
      changed.work sender = process.work sender ∧
        changed.registry.actors[sender]? = process.registry.actors[sender]?) :
    changed.status key = process.status key := by
  cases found : process.registry.find key.1 key.2 with
  | none => rw [status_missing (find.trans found), status_missing found, creation]
  | some sender =>
    obtain ⟨work, actor⟩ := tasks sender found
    rw [status, status, find, found]
    simp only [work, actor]

end Process

/-- The broker and its disk stand for these ledgers. -/
structure Awake (site : Site) (ledgers : Address → Ledger) (state : Cached lossy)
    (process : Process) : Prop where
  configured : process.registry.site = site.registry.site
  owned : process.registry.Owned
  plain : ∀ partition ∈ process.registry.actors, Plain partition.topic.toList
  workers : ∀ sender, process.work sender ≠ none →
    ∃ partition, process.registry.actors[sender]? = some partition
  creation : ∀ key rest, process.opening = some (key, rest) →
    Plain key.1.toList ∧ process.registry.find key.1 key.2 = none
  mapped : Mapped state.world site.baseDir
  fares : ∀ address, Fares site address (ledgers address) state (process.status address.val)

namespace Awake
variable {partition : Partition}

/-- The address of a task's partition. -/
theorem exists_address (awake : Awake site ledgers state process)
    (held : process.registry.actors[sender]? = some partition) :
    ∃ address : Address, address.val = partition.key ∧
      process.status address.val = (process.work sender).elim (.idle partition) fun entry =>
        .busy entry.1 entry.2 :=
  ⟨⟨partition.key, awake.plain _ (List.mem_of_getElem? held)⟩, rfl,
    Process.status_task (awake.owned.find_of_getElem? held) held⟩

/-- A task at work. -/
theorem exists_busy (awake : Awake site ledgers state process) {rest : Program (Answer × Partition)}
    (busy : process.work sender = some (request, rest)) : ∃ partition, ∃ address : Address,
      process.registry.actors[sender]? = some partition ∧ address.val = partition.key ∧
        process.status address.val = .busy request rest := by
  obtain ⟨partition, held⟩ := awake.workers sender (by rw [busy]; exact Option.some_ne_none _)
  obtain ⟨address, keyed, own⟩ := awake.exists_address held
  rw [busy] at own
  exact ⟨partition, address, held, keyed, own⟩

/-- The creation under way. -/
theorem exists_creation (awake : Awake site ledgers state process) {key : String × UInt32}
    {rest : Program (Except RukaError Partition)} (opening : process.opening = some (key, rest)) :
    ∃ address : Address, address.val = key ∧ process.registry.find key.1 key.2 = none ∧
      process.status key = .opening rest := by
  obtain ⟨plain, missing⟩ := awake.creation key rest opening
  have own := Process.status_missing missing
  rw [Process.creation_self opening] at own
  exact ⟨⟨key, plain⟩, rfl, missing, own⟩

/-- The tasks of other keys are other tasks. -/
theorem ne_of_find (awake : Awake site ledgers state process) {key : String × UInt32}
    (held : process.registry.actors[sender]? = some partition) (differ : partition.key ≠ key)
    (found : process.registry.find key.1 key.2 = some task) : task ≠ sender := by
  rintro rfl
  obtain ⟨own, there, keyed⟩ := awake.owned.getElem? found
  obtain rfl : partition = own := Option.some.inj (held.symm.trans there)
  exact differ keyed

/-- A task goes on: nothing changes for the others but what is on the disk elsewhere. -/
theorem setWork (awake : Awake site ledgers state process)
    (held : process.registry.actors[sender]? = some partition) (keyed : address.val = partition.key)
    (elsewhere : Elsewhere (site.dir address) state after)
    (present : state.world.HasDirectory (site.dir address))
    {rest : Request × Program (Answer × Partition)}
    (fares : Fares site address (ledgers address) after (.busy rest.1 rest.2)) :
    Awake site ledgers after (process.setWork sender (some rest)) where
  configured := awake.configured
  owned := awake.owned
  plain := awake.plain
  workers task busy := by
    by_cases here : task = sender
    · exact ⟨partition, here ▸ held⟩
    · rw [Process.work_setWork, Function.update_of_ne here] at busy
      exact awake.workers task busy
  creation := awake.creation
  mapped := awake.mapped.elsewhere elsewhere
  fares other := by
    by_cases here : address = other
    · subst here
      have found : (process.setWork sender (some rest)).registry.find partition.key.1
          partition.key.2 = some sender :=
        awake.owned.find_of_getElem? held
      have own : (process.setWork sender (some rest)).status partition.key =
          .busy rest.1 rest.2 := by
        rw [Process.status_task found held, Process.work_setWork, Function.update_self]
        rfl
      rw [keyed, own]
      exact fares
    · have same : (process.setWork sender (some rest)).status other.val =
          process.status other.val := by
        refine Process.status_congr rfl rfl fun task found => ⟨?_, rfl⟩
        have differ : partition.key ≠ other.val := fun same => here (Subtype.ext (keyed.trans same))
        exact Function.update_of_ne (awake.ne_of_find held differ found) _ _
      rw [same]
      exact (awake.fares other).wait elsewhere here fun _ => present

/-- There is one creation at a time. -/
theorem opening_of_status (awake : Awake site ledgers state process) {key : String × UInt32}
    {rest : Program (Except RukaError Partition)} (opening : process.status key = .opening rest) :
    process.opening = some (key, rest) := by
  cases found : process.registry.find key.1 key.2 with
  | none =>
    rw [Process.status_missing found] at opening
    cases held : process.opening with
    | none =>
      rw [Process.creation_none held] at opening
      cases opening
    | some entry =>
      obtain ⟨other, later⟩ := entry
      by_cases same : other = key
      · subst same
        rw [Process.creation_self held] at opening
        cases opening
        rfl
      · rw [Process.creation_ne held same] at opening
        cases opening
  | some task =>
    obtain ⟨own, there, -⟩ := awake.owned.getElem? found
    rw [Process.status_task found there] at opening
    cases held : process.work task with
    | none =>
      rw [held] at opening
      cases opening
    | some entry =>
      rw [held] at opening
      cases opening

/-- The creation goes on. -/
theorem setOpening (awake : Awake site ledgers state process)
    {rest : Program (Except RukaError Partition)}
    (missing : process.registry.find address.val.1 address.val.2 = none)
    (own : ∀ key old, process.opening = some (key, old) → key = address.val)
    (elsewhere : Elsewhere (site.dir address) state after)
    (fares : Fares site address (ledgers address) after (.opening rest)) :
    Awake site ledgers after (process.setOpening (some (address.val, rest))) where
  configured := awake.configured
  owned := awake.owned
  plain := awake.plain
  workers := awake.workers
  creation key later opening := by
    cases opening
    exact ⟨address.property, missing⟩
  mapped := awake.mapped.elsewhere elsewhere
  fares other := by
    by_cases here : address = other
    · subst here
      have still : (process.setOpening (some (address.val, rest))).registry.find address.val.1
          address.val.2 = none :=
        missing
      rw [Process.status_missing still, Process.creation_self rfl]
      exact fares
    · have differ : address.val ≠ other.val := fun same => here (Subtype.ext same)
      have before : process.creation other.val = none := by
        cases opening : process.opening with
        | none => exact Process.creation_none opening _
        | some entry =>
          exact Process.creation_ne opening fun same => differ ((own _ _ opening).symm.trans same)
      have same : (process.setOpening (some (address.val, rest))).status other.val =
          process.status other.val := by
        refine Process.status_congr rfl ?_ fun task _ => ⟨rfl, rfl⟩
        rw [before]
        exact Process.creation_ne rfl differ
      rw [same]
      exact (awake.fares other).wait elsewhere here fun ⟨old, opening⟩ =>
        absurd (own _ _ (awake.opening_of_status opening)).symm differ

/-- The answer of a task goes out. -/
theorem answered (awake : Awake site ledgers state process) {result : Partition}
    (held : process.registry.actors[sender]? = some partition) (keyed : address.val = partition.key)
    (holds : site.Holds address ledger state result) :
    Awake site (Function.update ledgers address ledger) state
      ((process.setWork sender none).setRegistry (process.registry.replace sender result)) := by
  have same : result.key = partition.key := by
    obtain ⟨patches, rfl, -⟩ := holds
    exact keyed
  refine ⟨awake.configured, awake.owned.replace held same, fun other member => ?_,
    fun task busy => ?_, awake.creation, awake.mapped, fun other => ?_⟩
  · rcases awake.owned.mem_replace held member with rfl | ⟨old, -⟩
    · have topics : other.topic = partition.topic := congrArg Prod.fst same
      rw [topics]
      exact awake.plain _ (List.mem_of_getElem? held)
    · exact awake.plain other old
  · by_cases here : task = sender
    · rw [here] at busy
      exact absurd (Function.update_self ..) busy
    · have busy : Function.update process.work sender none task ≠ none := busy
      rw [Function.update_of_ne here] at busy
      obtain ⟨old, there⟩ := awake.workers task busy
      exact ⟨old, (List.getElem?_set_ne (Ne.symm here)).trans there⟩
  · by_cases here : address = other
    · subst here
      have found := awake.owned.find_of_getElem? held
      have there : (process.registry.replace sender result).actors[sender]? = some result :=
        List.getElem?_set_self (List.getElem?_eq_some_iff.mp held).1
      have own : ((process.setWork sender none).setRegistry
          (process.registry.replace sender result)).status partition.key = .idle result := by
        rw [Process.status_task found there, Process.setRegistry, Process.work_setWork,
          Function.update_self]
        rfl
      rw [Function.update_self, keyed, own]
      exact holds
    · have differ : partition.key ≠ other.val := fun same => here (Subtype.ext (keyed.trans same))
      have unseen : ((process.setWork sender none).setRegistry
          (process.registry.replace sender result)).status other.val =
            process.status other.val := by
        refine Process.status_congr rfl rfl fun task found => ?_
        have apart := awake.ne_of_find held differ found
        exact ⟨Function.update_of_ne apart _ _, List.getElem?_set_ne (Ne.symm apart)⟩
      rw [Function.update_of_ne (Ne.symm here), unseen]
      exact awake.fares other

/-- The new partition gets its task. -/
theorem settled (awake : Awake site ledgers state process)
    {rest : Program (Except RukaError Partition)}
    (opening : process.opening = some (address.val, rest))
    (holds : site.Holds address (ledgers address) state partition) :
    Awake site ledgers state ((process.setOpening none).setRegistry
      ((process.registry.enterTopic address.val.1).register address.val.1 address.val.2
        partition)) := by
  have keyed : partition.key = address.val := by
    obtain ⟨patches, rfl, -⟩ := holds
    rfl
  have missing := (awake.creation _ _ opening).2
  have entered : (process.registry.enterTopic address.val.1).find address.val.1
      address.val.2 = none := by
    rw [TopicRegistry.find_enterTopic, missing]
  have idle : process.work process.registry.actors.length = none := by
    by_contra busy
    obtain ⟨old, there⟩ := awake.workers _ busy
    rw [List.getElem?_eq_none (Nat.le_refl _)] at there
    cases there
  refine ⟨awake.configured, (awake.owned.enterTopic _).register entered keyed,
    fun other member => ?_, fun task busy => ?_, nofun, awake.mapped, fun other => ?_⟩
  · rcases List.mem_append.mp member with old | new
    · exact awake.plain other old
    · have topics : partition.topic = address.val.1 := congrArg Prod.fst keyed
      rw [List.mem_singleton.mp new, topics]
      exact address.property
  · obtain ⟨old, there⟩ := awake.workers task busy
    exact ⟨old, (List.getElem?_append_left (List.getElem?_eq_some_iff.mp there).1).trans there⟩
  · by_cases here : address = other
    · subst here
      have found : ((process.registry.enterTopic address.val.1).register address.val.1 address.val.2
          partition).find address.val.1 address.val.2 = some process.registry.actors.length := by
        rw [TopicRegistry.find_register, if_pos rfl]
        rfl
      have there : (process.registry.actors ++ [partition])[process.registry.actors.length]? =
          some partition :=
        List.getElem?_concat_length
      have own : ((process.setOpening none).setRegistry
          ((process.registry.enterTopic address.val.1).register address.val.1 address.val.2
            partition)).status address.val = .idle partition := by
        rw [Process.status_task found there, Process.setRegistry, Process.setOpening, idle]
        rfl
      rw [own]
      exact holds
    · have differ : address.val ≠ other.val := fun same => here (Subtype.ext same)
      have unseen : ((process.setOpening none).setRegistry
          ((process.registry.enterTopic address.val.1).register address.val.1 address.val.2
            partition)).status other.val = process.status other.val := by
        refine Process.status_congr ?_ ?_ fun task found => ⟨rfl, ?_⟩
        · rw [Process.setRegistry, TopicRegistry.find_register, if_neg fun same => differ same.symm,
            TopicRegistry.find_enterTopic]
        · rw [Process.creation_ne opening differ]
          exact Process.creation_none rfl _
        · obtain ⟨own, there, -⟩ := awake.owned.getElem? found
          exact List.getElem?_append_left (List.getElem?_eq_some_iff.mp there).1
      rw [unseen]
      exact awake.fares other

/-- Every step of the broker is one of the ledgers. -/
theorem step {incidents : List Incident} (awake : Awake site ledgers state process)
    (careful : lossy → site.level ≠ .none) (step : process.Step state incidents after changed) :
    ∃ later : Address → Ledger, (∀ address,
      Ledger.Steps site.maxSegmentBytes lossy site.level (ledgers address)
        (incidents.flatMap (Incident.happenings address.val)) (later address)) ∧
        Awake site later after changed := by
  cases step with
  | take held idle admits command =>
    obtain ⟨address, keyed, own⟩ := awake.exists_address held
    have fares := awake.fares address
    rw [own, idle] at fares
    have taken := Fares.take careful fares admits
    exact ⟨ledgers, fun _ => rfl, awake.setWork held keyed (.refl _ _) taken.1 taken⟩
  | work busy =>
    obtain ⟨partition, address, held, keyed, own⟩ := awake.exists_busy busy
    have fares := awake.fares address
    rw [own] at fares
    obtain ⟨directory, endures⟩ := fares
    have elsewhere := elsewhere_called endures.makes.1 state
    have still := elsewhere.hasDirectory directory fun name above => by
      have length := above.length_le
      simp at length
    exact ⟨ledgers, fun _ => rfl,
      awake.setWork held keyed elsewhere directory ⟨still, endures.call⟩⟩
  | @answer sender request answer partition result held busy =>
    obtain ⟨address, keyed, own⟩ := awake.exists_address held
    have fares := awake.fares address
    rw [own, busy] at fares
    obtain ⟨later, answers, holds⟩ := fares.2.done
    refine ⟨_, fun other => ?_, awake.answered held keyed holds⟩
    by_cases here : address = other
    · subst here
      simp only [List.flatMap_singleton, Incident.happenings, keyed, ↓reduceIte,
        Function.update_self]
      exact ⟨later, .answered answers, rfl⟩
    · have differ : partition.key ≠ other.val := fun same => here (Subtype.ext (keyed.trans same))
      simp only [List.flatMap_singleton, Incident.happenings, differ, ↓reduceIte,
        Function.update_of_ne (Ne.symm here)]
      rfl
  | @enter key plain missing free readDir enumerates =>
    obtain ⟨address, rfl⟩ : ∃ address : Address, address.val = key := ⟨⟨key, plain⟩, rfl⟩
    have fares := awake.fares address
    rw [Process.status_missing missing, Process.creation_none free] at fares
    have base : process.registry.baseDir = site.baseDir := congrArg Prod.fst awake.configured
    have program : process.registry.openPartition readDir address.val.1 address.val.2 =
        (site.settings address).openOrCreate readDir site.level := by
      have parts := Prod.mk.inj awake.configured
      rw [TopicRegistry.openPartition, base, (Prod.mk.inj parts.2).1, (Prod.mk.inj parts.2).2]
      rfl
    rw [base] at enumerates
    rw [program]
    refine ⟨ledgers, fun _ => rfl, awake.setOpening missing (fun key old opening => ?_) (.refl _ _)
      (Fares.enter fares readDir enumerates)⟩
    rw [free] at opening
    cases opening
  | create opening =>
    obtain ⟨address, rfl, missing, own⟩ := awake.exists_creation opening
    have fares := awake.fares address
    rw [own] at fares
    obtain ⟨nothing, endures⟩ := fares
    refine ⟨ledgers, fun _ => rfl, awake.setOpening missing (fun other old same => ?_)
      (elsewhere_called endures.makes.1 state) ⟨nothing, endures.call⟩⟩
    rw [opening] at same
    cases same
    rfl
  | settle opening =>
    obtain ⟨address, rfl, -, own⟩ := awake.exists_creation opening
    have fares := awake.fares address
    rw [own] at fares
    obtain ⟨partition, rfl, holds⟩ := fares.2.done
    exact ⟨ledgers, fun _ => rfl, awake.settled opening holds⟩

/-- A stop inside a call. -/
theorem during (awake : Awake site ledgers state process) (calls : process.Calls call)
    (bytes : Nat) :
    Mapped (state.during call bytes).world site.baseDir ∧
      ∀ address, (state.during call bytes).Safe
        (Lands site address (ledgers address) lossy (process.status address.val).contents) := by
  cases calls with
  | task busy =>
    obtain ⟨partition, address, held, keyed, own⟩ := awake.exists_busy busy
    have fares := awake.fares address
    rw [own] at fares
    obtain ⟨directory, endures⟩ := fares
    have elsewhere := elsewhere_during endures.makes.1 state bytes
    refine ⟨awake.mapped.elsewhere elsewhere, fun other => ?_⟩
    by_cases here : address = other
    · subst here
      rw [own]
      exact fun disk survives => (endures.safe_during bytes disk survives).lands
    · exact ((awake.fares other).wait elsewhere here fun _ => directory).lands
  | opening opening =>
    obtain ⟨address, rfl, -, own⟩ := awake.exists_creation opening
    have fares := awake.fares address
    rw [own] at fares
    obtain ⟨nothing, endures⟩ := fares
    have elsewhere := elsewhere_during endures.makes.1 state bytes
    refine ⟨awake.mapped.elsewhere elsewhere, fun other => ?_⟩
    by_cases here : address = other
    · subst here
      rw [own]
      exact fun disk survives => (endures.safe_during bytes disk survives).lands
    · refine ((awake.fares other).wait elsewhere here fun ⟨old, taken⟩ => ?_).lands
      have taken := awake.opening_of_status taken
      rw [opening] at taken
      exact absurd (Subtype.ext (congrArg Prod.fst (Option.some.inj taken))) here

/-- A broker at rest. -/
theorem resting (awake : Awake site ledgers state process)
    (idle : ∀ sender, process.work sender = none) (free : process.opening = none) :
    Asleep site ledgers state := by
  refine ⟨awake.mapped, fun address => ?_⟩
  have fares := awake.fares address
  cases found : process.registry.find address.val.1 address.val.2 with
  | none =>
    rw [Process.status_missing found, Process.creation_none free] at fares
    exact .inl fares
  | some sender =>
    obtain ⟨partition, held, -⟩ := awake.owned.getElem? found
    rw [Process.status_task found held, idle] at fares
    obtain ⟨patches, -, running⟩ := fares
    exact running.resting

end Awake

end Ruka
