import Ruka.BrokerSteps

/-! A broker over the life of a machine that stops again and again: between two
calls, inside one, while the registry is loaded. For each of its partitions that is
a history of the partition's ledger. -/
namespace Ruka
open BigEndian LexicalPaths FilePrograms FilePrograms.Cached DecimalNames

/-- The states of a disk and the broker on it, and what has happened so far. The
machine stops inside a call of the broker (`cut`), between two of them (`stopped`),
inside `TopicRegistry::load` (`stalled`), or when no broker runs (`down`). -/
inductive BrokerCourse (site : Site) (lossy : Prop) :
    Cached lossy → Option Process → List Incident → Prop
  | start {disk : World} (empty : ∀ path, StrictlyInside site.baseDir path → disk.node path = none)
      (clear : ∀ ancestor, ancestor ≠ [] → ancestor <+: site.baseDir → disk.file? ancestor = none) :
      BrokerCourse site lossy (settled lossy disk) none []
  | loaded {state after : Cached lossy} {registry : TopicRegistry}
      (course : BrokerCourse site lossy state none history) (readDir : Path → List Name)
      (lists : ∀ dir, state.world.isDirectory dir = true → Enumerates state.world dir (readDir dir))
      (ran : (site.load readDir).cached state = (.ok (.ok registry), after)) :
      BrokerCourse site lossy after (some (.started registry))
        (history ++ [.loaded fun key =>
          Rebuilds state.world (partitionDir site.baseDir key.1 key.2)])
  | stalled {state : Cached lossy} {disk : World}
      (course : BrokerCourse site lossy state none history) (readDir : Path → List Name)
      (lists : ∀ dir, state.world.isDirectory dir = true → Enumerates state.world dir (readDir dir))
      (calls bytes : Nat)
      (survives : ((site.load readDir).stopped state calls bytes).Survives disk) :
      BrokerCourse site lossy (settled lossy disk) none
        (history ++ [.stalled fun key =>
          Rebuilds state.world (partitionDir site.baseDir key.1 key.2)])
  | step {state after : Cached lossy} {process changed : Process}
      (course : BrokerCourse site lossy state (some process) history)
      (step : process.Step state incidents after changed) :
      BrokerCourse site lossy after (some changed) (history ++ incidents)
  | cut {state : Cached lossy} {process : Process} {disk : World}
      (course : BrokerCourse site lossy state (some process) history) (calls : process.Calls call)
      (bytes : Nat) (survives : (state.during call bytes).Survives disk) :
      BrokerCourse site lossy (settled lossy disk) none
        (history ++ [.stopped fun key => (process.status key).request])
  | stopped {state : Cached lossy} {process : Process} {disk : World}
      (course : BrokerCourse site lossy state (some process) history)
      (survives : state.Survives disk) :
      BrokerCourse site lossy (settled lossy disk) none
        (history ++ [.stopped fun key => (process.status key).request])
  | down {state : Cached lossy} {disk : World} (course : BrokerCourse site lossy state none history)
      (survives : state.Survives disk) :
      BrokerCourse site lossy (settled lossy disk) none (history ++ [.stopped fun _ => none])
  | closed {state : Cached lossy} {process : Process}
      (course : BrokerCourse site lossy state (some process) history)
      (idle : ∀ sender, process.work sender = none) (free : process.opening = none) :
      BrokerCourse site lossy state none (history ++ [.closed])

variable {lossy : Prop} {state after : Cached lossy} {site : Site} {ledgers : Address → Ledger}
  {process : Process} {running : Option Process} {address : Address}
  {history before between later : List Incident}

/-- Each ledger has come this far. -/
def Recounts (site : Site) (lossy : Prop) (history : List Incident)
    (ledgers : Address → Ledger) : Prop :=
  ∀ address, Ledger.Steps site.maxSegmentBytes lossy site.level .empty
    (history.flatMap (Incident.happenings address.val)) (ledgers address)

private theorem Recounts.append {history incidents : List Incident} {later : Address → Ledger}
    (recounts : Recounts site lossy history ledgers)
    (steps : ∀ address, Ledger.Steps site.maxSegmentBytes lossy site.level (ledgers address)
      (incidents.flatMap (Incident.happenings address.val)) (later address)) :
    Recounts site lossy (history ++ incidents) later := by
  intro address
  rw [List.flatMap_append]
  exact Ledger.steps_append.mpr ⟨_, recounts address, steps address⟩

/-- One incident that is one happening for each partition. -/
theorem Recounts.snoc {history : List Incident} {incident : Incident} {later : Address → Ledger}
    (recounts : Recounts site lossy history ledgers)
    (steps : ∀ address : Address, ∃ event, incident.happenings address.val = [event] ∧
      Ledger.Step site.maxSegmentBytes lossy site.level (ledgers address) event (later address)) :
    Recounts site lossy (history ++ [incident]) later := by
  refine recounts.append fun address => ?_
  obtain ⟨event, shape, step⟩ := steps address
  rw [List.flatMap_singleton, shape]
  exact ⟨_, step, rfl⟩

/-- The machine stops, and every partition is left as its ledger allows. -/
theorem Recounts.stop {history : List Incident} {disk : World}
    (recounts : Recounts site lossy history ledgers) (status : String × UInt32 → Status)
    (mapped : Mapped state.world site.baseDir)
    (lands : ∀ address : Address,
      state.Safe (Lands site address (ledgers address) lossy (status address.val).contents))
      (survives : state.Survives disk) :
    ∃ later, Recounts site lossy (history ++ [.stopped fun key => (status key).request]) later ∧
      Asleep site later (settled lossy disk) := by
  choose later taken resting using fun address => (lands address disk survives).step
  exact ⟨later, recounts.snoc fun address => ⟨_, rfl, taken address⟩,
    mapped.survives survives, resting⟩

namespace BrokerCourse

end BrokerCourse

/-- What a call acknowledges lies behind what was in the log. -/
theorem Ledger.Answers.length_le_acknowledged {ledger grown : Ledger}
    (answers : ledger.Answers limit synced request answer grown)
    (member : receipt ∈ Ruka.acknowledged (request, answer)) : ledger.log.length ≤ receipt.1 := by
  cases answers with
  | read | fetched => cases member
  | appended _ _ more writes taken => exact taken.length_le_acknowledged member

namespace BrokerCourse

/-- A step that is not seen from outside. -/
theorem moved {changed : Process} (course : BrokerCourse site lossy state (some process) history)
    (step : process.Step state [] after changed) :
    BrokerCourse site lossy after (some changed) history := by
  have moved := course.step step
  rwa [List.append_nil] at moved

/-- What is left of a creation is done. -/
theorem created {key : String × UInt32} {program : Program (Except RukaError Partition)}
    (course : BrokerCourse site lossy state (some process) history)
    (opening : process.opening = some (key, program))
    (ran : program.cached state = (.ok (.ok partition), after)) :
    BrokerCourse site lossy after (some ((process.setOpening none).setRegistry
      ((process.registry.enterTopic key.1).register key.1 key.2 partition))) history := by
  induction program generalizing state process with
  | done result =>
    cases ran
    exact course.moved (.settle opening)
  | halt reason => cases ran
  | call call next ih =>
    have rest := ih _ (course.moved (.create opening)) rfl ran
    exact rest

end BrokerCourse

/-! ## An append, a stop and a restart -/

/-- The paths a call can bring into being. -/
private def touches : Call → List Path
  | .createDirAll path => path.inits
  | .openFile path _ => [path]
  | .write path _ _ => [path]
  | .setLen path _ => [path]
  | _ => []

/-- The paths a run can bring into being. -/
private def touched : Program α → World → List Path
  | .done _, _ => []
  | .halt _, _ => []
  | .call request next, world =>
    touches request ++ touched (next (perform request world).1) (perform request world).2

private def topicName : Name := ⟨['t'], by decide⟩

private def entryName : Name := ⟨['0'], by decide⟩

private def listing (dir : Path) : List Name :=
  if dir = [] then [topicName]
  else if dir = [topicName] then [entryName]
  else [logName 0, indexName 0]

end Ruka
