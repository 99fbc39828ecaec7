import Ruka.FrayedOpening
import Ruka.RestartSurvival

/-! A partition over the life of a machine that stops again and again: in a call,
in a rotation, while it recovers from the last stop. Every such history is that of
a ledger, and what was acknowledged stays in the ledger. A partition syncs its
files and never a directory, so all of this rests on names that survive without. -/
namespace Ruka
open BigEndian LexicalPaths FilePrograms FilePrograms.Cached DecimalNames

/-- What happens to a partition. An opening rebuilds the index for some offsets. -/
inductive Happening where
  | opened (rebuilt : Nat → Prop)
  | stalled (rebuilt : Nat → Prop)
  | answered (request : Request) (answer : Answer)
  | interrupted (request : Request)
  | stopped
  | closed

/-- A call that finds the active log unmoved, hands in no record that is too long
to read back, and for which there are offsets left. -/
structure Partition.Admits (partition : Partition) (request : Request) : Prop where
  unmoved : Unmoved partition request
  small : request.Small
  offsets : partition.nextOffset + request.count < 2 ^ 64

/-- The states of a disk and a partition on it, and what has happened so far. The
machine can stop inside an opening, inside a call, and in between. -/
inductive Course (settings : Settings) (lossy : Prop) (level : SyncLevel) :
    Cached lossy → Option Partition → List Happening → Prop
  | start {disk : World} (vacant : Vacant disk settings.dir) :
      Course settings lossy level (settled lossy disk) none []
  | opened {state after : Cached lossy} {partition : Partition}
      (course : Course settings lossy level state none history) (readDir : Path → List Name)
      (enumerates : Enumerates state.world settings.dir (readDir settings.dir))
      (ran : (settings.openOrCreate readDir level).cached state = (.ok (.ok partition), after)) :
      Course settings lossy level after (some partition)
        (history ++ [.opened (Rebuilds state.world settings.dir)])
  | stalled {state : Cached lossy} {disk : World}
      (course : Course settings lossy level state none history) (readDir : Path → List Name)
      (enumerates : Enumerates state.world settings.dir (readDir settings.dir)) (calls bytes : Nat)
      (survives : ((settings.openOrCreate readDir level).stopped state calls bytes).Survives disk) :
      Course settings lossy level (settled lossy disk) none
        (history ++ [.stalled (Rebuilds state.world settings.dir)])
  | answered {state after : Cached lossy} {partition result : Partition}
      (course : Course settings lossy level state (some partition) history)
      (admits : partition.Admits request)
      (ran : (partition.serve request).cached state = (.ok (answer, result), after)) :
      Course settings lossy level after (some result) (history ++ [.answered request answer])
  | interrupted {state : Cached lossy} {disk : World} {partition : Partition}
      (course : Course settings lossy level state (some partition) history)
      (admits : partition.Admits request) (calls bytes : Nat)
      (survives : ((partition.serve request).stopped state calls bytes).Survives disk) :
      Course settings lossy level (settled lossy disk) none (history ++ [.interrupted request])
  | stopped {state : Cached lossy} {disk : World} {partition : Option Partition}
      (course : Course settings lossy level state partition history)
      (survives : state.Survives disk) :
      Course settings lossy level (settled lossy disk) none (history ++ [.stopped])
  | closed {state : Cached lossy} {partition : Partition}
      (course : Course settings lossy level state (some partition) history) :
      Course settings lossy level state none (history ++ [.closed])

namespace Ledger
variable {lossy : Prop} {level : SyncLevel} {ledger middle later final : Ledger}

def empty : Ledger := ⟨[], fun _ => False, fun _ => False, fun _ => id, fun _ => False.elim⟩

/-- What each happening makes of the ledger. -/
inductive Step (limit : Nat) (lossy : Prop) (level : SyncLevel) (ledger : Ledger) :
    Happening → Ledger → Prop
  | opened (rebuilt : Nat → Prop) :
      Step limit lossy level ledger (.opened rebuilt) (ledger.reopen lossy rebuilt)
  | stalled (rebuilt : Nat → Prop) :
      Step limit lossy level ledger (.stalled rebuilt) (ledger.stop [] rebuilt)
  | answered {next : Ledger}
      (answers : ledger.Answers limit (lossy → level = .logAndIndex) request answer next) :
      Step limit lossy level ledger (.answered request answer) next
  | interrupted (request : Request) (more : List Content) (part : more <+: request.contents) :
      Step limit lossy level ledger (.interrupted request) (ledger.stop more fun _ => False)
  | stopped : Step limit lossy level ledger .stopped (ledger.stop [] fun _ => False)
  | closed : Step limit lossy level ledger .closed ledger

/-- A whole history of the ledger. -/
def Steps (limit : Nat) (lossy : Prop) (level : SyncLevel) : Ledger → List Happening → Ledger → Prop
  | ledger, [], final => final = ledger
  | ledger, event :: rest, final =>
    ∃ middle, Step limit lossy level ledger event middle ∧ Steps limit lossy level middle rest final

theorem steps_append : Steps limit lossy level ledger (before ++ rest) final ↔
    ∃ middle, Steps limit lossy level ledger before middle ∧
    Steps limit lossy level middle rest final := by
  induction before generalizing ledger with
  | nil => simp [Steps]
  | cons event before ih =>
    simp only [List.cons_append, Steps, ih]
    constructor
    · rintro ⟨first, taken, middle, steps, later⟩
      exact ⟨middle, ⟨first, taken, steps⟩, later⟩
    · rintro ⟨middle, ⟨first, taken, steps⟩, later⟩
      exact ⟨first, taken, middle, steps, later⟩

private theorem Steps.snoc (steps : Steps limit lossy level ledger history middle)
    (taken : Step limit lossy level middle event later) :
    Steps limit lossy level ledger (history ++ [event]) later :=
  steps_append.mpr ⟨middle, steps, later, taken, rfl⟩

end Ledger

variable {settings : Settings} {lossy : Prop} {level : SyncLevel} {state : Cached lossy}

/-- The partition, open or not, and its disk stand for this ledger. -/
def Stands (settings : Settings) (level : SyncLevel) (ledger : Ledger) (state : Cached lossy) :
    Option Partition → Prop
  | none => Resting settings ledger state
  | some partition => ∃ patches, partition = (settings.frame level).withPatches patches ∧
      Running ledger state settings.dir settings.maxSegmentBytes patches

namespace Course

/-- A call on a running partition: what it answers, and what a stop inside it leaves. -/
theorem weathers_call {ledger : Ledger} {patches : List Patch} (careful : lossy → level ≠ .none)
    (running : Running ledger state settings.dir settings.maxSegmentBytes patches)
    (admits : ((settings.frame level).withPatches patches).Admits request) :
    (((settings.frame level).withPatches patches).serve request).Weathers state
      (Recoverable lossy ledger.sure settings.dir settings.maxSegmentBytes ledger.log
        request.contents)
      fun reply after =>
        ∃ later others, ledger.Answers settings.maxSegmentBytes (lossy → level = .logAndIndex)
          request reply.1 later ∧ reply.2 = (settings.frame level).withPatches others ∧
        Running later after settings.dir settings.maxSegmentBytes others := by
  have offsets := admits.offsets
  rw [Partition.nextOffset_running _ running] at offsets
  refine Partition.weathers_serve careful running request (fun active isLast => ?_)
    admits.small offsets
  refine admits.unmoved (active.segment settings.dir settings.maxSegmentBytes level) ?_
  simp only [Partition.withBlocks, Settings.frame, List.getLast?_map, Option.mem_def] at isLast ⊢
  rw [isLast]
  rfl

/-- Every history of the machine is one of the ledger. -/
theorem stands (course : Course settings lossy level state partition history)
    (careful : lossy → level ≠ .none) :
    ∃ ledger, Ledger.Steps settings.maxSegmentBytes lossy level .empty history ledger ∧
    Stands settings level ledger state partition := by
  induction course with
  | start vacant => exact ⟨.empty, rfl, .inl ⟨vacant, rfl⟩⟩
  | opened course readDir enumerates ran ih =>
    obtain ⟨ledger, steps, resting⟩ := ih
    obtain ⟨patches, shape, running⟩ :=
      (settings.completes_openOrCreate readDir level resting enumerates).weathers.holds _ _ ran
    exact ⟨_, steps.snoc (.opened _), patches, Except.ok.inj shape, running⟩
  | stalled course readDir enumerates calls bytes survives ih =>
    obtain ⟨ledger, steps, resting⟩ := ih
    have left := (settings.completes_openOrCreate readDir level resting enumerates).weathers.safe
      calls bytes _ survives
    exact ⟨_, steps.snoc (.stalled _), left⟩
  | answered course admits ran ih =>
    obtain ⟨ledger, steps, patches, rfl, running⟩ := ih
    obtain ⟨later, others, answers, shape, after⟩ :=
      (weathers_call careful running admits).holds _ _ ran
    exact ⟨later, steps.snoc (.answered answers), others, shape, after⟩
  | interrupted course admits calls bytes survives ih =>
    obtain ⟨ledger, steps, patches, rfl, running⟩ := ih
    obtain ⟨tiles, frayed, ⟨more, low⟩, high⟩ :=
      (weathers_call careful running admits).safe calls bytes _ survives
    rw [← low] at high
    refine ⟨_, steps.snoc (.interrupted _ more ((List.prefix_append_right_inj _).mp high)),
      .inr ⟨tiles, ?_, low.symm⟩⟩
    exact frayed.of_imp fun _ held => held.1
  | @stopped history state disk partition course survives ih =>
    obtain ⟨ledger, steps, stands⟩ := ih
    refine ⟨_, steps.snoc .stopped, ?_⟩
    have resting : Resting settings ledger state := by
      cases partition with
      | none => exact stands
      | some partition =>
        obtain ⟨patches, -, running⟩ := stands
        exact running.resting
    exact (resting.survives survives).of_imp (List.append_nil _) fun _ held => held.1
  | closed course ih =>
    obtain ⟨ledger, steps, patches, -, running⟩ := ih
    exact ⟨ledger, steps.snoc .closed, running.resting⟩

private theorem exists_listing (course : Course settings lossy level state none history)
    (careful : lossy → level ≠ .none) : ∃ listing, Enumerates state.world settings.dir listing := by
  obtain ⟨ledger, -, resting⟩ := course.stands careful
  exact Resting.exists_listing resting

end Course

/-- What a call acknowledges has a new offset. -/
theorem LogStep.length_le_acknowledged (taken : LogStep limit log request answer grown)
    (member : receipt ∈ Ruka.acknowledged (request, answer)) : log.length ≤ receipt.1 := by
  cases taken with
  | appended key value => rw [List.mem_singleton.mp member]
  | batchAppended payloads =>
    obtain ⟨place, inside, rfl⟩ := List.mem_mapIdx.mp member
    exact Nat.le_add_right _ _
  | refused | batchRefused | found | missing | fetched => cases member

namespace Happening

end Happening

namespace Ledger
variable {ledger middle later final : Ledger}

/-- Nothing is taken off the log. -/
theorem Step.log_isPrefix (taken : Step limit lossy level ledger event later) :
    ledger.log <+: later.log := by
  cases taken with
  | opened | closed => exact List.prefix_refl _
  | stalled | interrupted | stopped => exact List.prefix_append _ _
  | answered answers =>
    cases answers with
    | appended => exact List.prefix_append _ _
    | read | fetched => exact List.prefix_refl _

theorem Steps.log_isPrefix (steps : Steps limit lossy level ledger history final) :
    ledger.log <+: final.log := by
  induction history generalizing ledger with
  | nil =>
    cases steps
    exact List.prefix_refl _
  | cons event rest ih =>
    obtain ⟨middle, taken, later⟩ := steps
    exact taken.log_isPrefix.trans (ih later)

/-- What a call acknowledges is in the log behind it, is found, and is sure if it
was synced. -/
theorem Answers.acknowledged (answers : ledger.Answers limit synced request answer later)
    (member : receipt ∈ Ruka.acknowledged (request, answer)) :
    later.log[receipt.1]? = some receipt.2 ∧ later.found receipt.1 ∧
    (synced → later.sure receipt.1) := by
  cases answers with
  | read | fetched => cases member
  | appended _ _ more writes taken =>
    have held := taken.acknowledged member
    have inside := (List.getElem?_eq_some_iff.mp held).1
    rw [List.length_append] at inside
    have new := taken.length_le_acknowledged member
    exact ⟨held, .inr ⟨new, inside⟩, fun synced => .inr ⟨synced, new, inside⟩⟩

theorem Steps.log_getElem? {offset : Nat} (steps : Steps limit lossy level ledger history final)
    (held : ledger.log[offset]? = some content) : final.log[offset]? = some content := by
  obtain ⟨more, grown⟩ := steps.log_isPrefix
  rw [← grown, List.getElem?_append_left (List.getElem?_eq_some_iff.mp held).1, held]

/-- It stays there. -/
theorem Steps.acknowledged (steps : Steps limit lossy level ledger history final)
    (listed : .answered request answer ∈ history)
    (member : receipt ∈ Ruka.acknowledged (request, answer)) :
    final.log[receipt.1]? = some receipt.2 := by
  obtain ⟨before, rest, rfl⟩ := List.append_of_mem listed
  obtain ⟨middle, -, acked, taken, later⟩ := steps_append.mp steps
  cases taken with
  | answered answers => exact later.log_getElem? (answers.acknowledged member).1

end Ledger

end Ruka
