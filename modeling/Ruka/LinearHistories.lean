import Mathlib.Data.List.Basic
import Mathlib.Logic.Function.Basic

/-! Linearizable histories. A history is what the clients of a shared object see
of it: operations that were invoked and responses that came back. It is explained
by an order of operations that a single client could have made one after the other
if every operation takes effect at one instant between its invocation and its
response. `Committed` builds such an order along a run, one instant after another;
`Linearized` says what the order has to do with the history. -/
namespace Ruka.LinearHistories

/-- What the clients see of the object. -/
inductive Mark (ι ω ρ : Type) where
  | invoked (client : ι) (operation : ω)
  | responded (client : ι) (operation : ω) (result : ρ)

/-- How far a client has come with its operation. -/
inductive Slot (ω ρ : Type) where
  | free
  | invoked (operation : ω)
  | effective (operation : ω) (result : ρ)

variable {ι ω ρ σ : Type}

/-- What a slot says the client has asked for. -/
def Slot.asked : Slot ω ρ → List ω
  | .free => []
  | .invoked operation => [operation]
  | .effective operation _ => [operation]

/-- What a slot says has happened but was not yet told. -/
def Slot.untold : Slot ω ρ → List (ω × ρ)
  | .free => []
  | .invoked _ => []
  | .effective operation result => [(operation, result)]

theorem Slot.untold_le_asked (slot : Slot ω ρ) : slot.untold.map Prod.fst <+: slot.asked := by
  cases slot with
  | free => exact List.prefix_refl _
  | invoked operation => exact List.nil_prefix
  | effective operation result => exact List.prefix_refl _

variable [DecidableEq ι]

/-- A history in which every operation takes effect at one instant: invoked, then
effective, then responded to. -/
inductive Committed (spec : σ → ω → ρ → σ → Prop) (init : σ) :
    List (Mark ι ω ρ) → (ι → Slot ω ρ) → List (ι × ω × ρ) → σ → Prop
  | start : Committed spec init [] (fun _ => .free) [] init
  | invoke (run : Committed spec init history slots order state) (free : slots client = .free)
      (operation : ω) :
      Committed spec init (history ++ [.invoked client operation])
        (Function.update slots client (.invoked operation)) order state
  | commit (run : Committed spec init history slots order state)
      (asked : slots client = .invoked operation) (taken : spec state operation result after) :
      Committed spec init history (Function.update slots client (.effective operation result))
        (order ++ [(client, operation, result)]) after
  | respond (run : Committed spec init history slots order state)
      (effective : slots client = .effective operation result) :
      Committed spec init (history ++ [.responded client operation result])
        (Function.update slots client .free) order state

/-- The operations a client has had a response to. -/
def completed (client : ι) (history : List (Mark ι ω ρ)) : List (ω × ρ) :=
  history.filterMap fun
    | .responded other operation result => if other = client then some (operation, result) else none
    | .invoked .. => none

/-- The operations a client has asked for. -/
def invocations (client : ι) (history : List (Mark ι ω ρ)) : List ω :=
  history.filterMap fun
    | .invoked other operation => if other = client then some operation else none
    | .responded .. => none

/-- The part of an order that is one client's. -/
def ofClient (client : ι) (order : List (ι × ω × ρ)) : List (ω × ρ) :=
  order.filterMap fun entry => if entry.1 = client then some entry.2 else none

namespace Committed
variable {spec : σ → ω → ρ → σ → Prop} {init state : σ} {history before after : List (Mark ι ω ρ)}
  {slots : ι → Slot ω ρ} {order : List (ι × ω × ρ)}

/-- For every client the order holds what it was told and at most one operation more. -/
theorem ofClient_eq (run : Committed spec init history slots order state) (client : ι) :
    ofClient client order = completed client history ++ (slots client).untold := by
  induction run with
  | start => rfl
  | @invoke history slots order state actor run free operation ih =>
    by_cases same : client = actor
    · subst same
      simpa [completed, free, Slot.untold] using ih
    · simpa [completed, same, Ne.symm same] using ih
  | @commit history slots order state actor operation result after run asked taken ih =>
    by_cases same : client = actor
    · subst same
      simpa [ofClient, asked, Slot.untold] using ih
    · simpa [ofClient, same, Ne.symm same] using ih
  | @respond history slots order state actor operation result run effective ih =>
    by_cases same : client = actor
    · subst same
      simpa [completed, effective, Slot.untold] using ih
    · simpa [completed, same, Ne.symm same] using ih

/-- A client asks for one operation at a time. -/
theorem invocations_eq (run : Committed spec init history slots order state) (client : ι) :
    invocations client history = (completed client history).map Prod.fst ++
      (slots client).asked := by
  induction run with
  | start => rfl
  | @invoke history slots order state actor run free operation ih =>
    by_cases same : client = actor
    · subst same
      simpa [invocations, completed, free, Slot.asked] using ih
    · simpa [invocations, completed, same, Ne.symm same] using ih
  | @commit history slots order state actor operation result after run asked taken ih =>
    by_cases same : client = actor
    · subst same
      simpa [asked, Slot.asked] using ih
    · simpa [same] using ih
  | @respond history slots order state actor operation result run effective ih =>
    by_cases same : client = actor
    · subst same
      simpa [invocations, completed, effective, Slot.asked] using ih
    · simpa [invocations, completed, same, Ne.symm same] using ih

/-- What was effective when a part of the history was over stays where it is. -/
theorem cut (run : Committed spec init history slots order state)
    (split : history = before ++ after) :
    ∃ slots early middle, Committed spec init before slots early middle ∧ early <+: order := by
  induction run generalizing after with
  | start =>
    obtain ⟨rfl, rfl⟩ := List.append_eq_nil_iff.mp split.symm
    exact ⟨_, _, _, .start, List.prefix_refl _⟩
  | invoke run free operation ih =>
    rcases List.eq_nil_or_concat after with rfl | ⟨later, last, rfl⟩
    · rw [List.append_nil] at split
      subst split
      exact ⟨_, _, _, invoke run free operation, List.prefix_refl _⟩
    · rw [List.concat_eq_append, ← List.append_assoc] at split
      exact ih (List.append_inj' split rfl).1
  | commit run asked taken ih =>
    obtain ⟨slots, early, middle, committed, within⟩ := ih split
    exact ⟨slots, early, middle, committed, within.trans (List.prefix_append _ _)⟩
  | respond run effective ih =>
    rcases List.eq_nil_or_concat after with rfl | ⟨later, last, rfl⟩
    · rw [List.append_nil] at split
      subst split
      exact ⟨_, _, _, respond run effective, List.prefix_refl _⟩
    · rw [List.concat_eq_append, ← List.append_assoc] at split
      exact ih (List.append_inj' split rfl).1

/-- The order holds what the client was told and nothing it has not asked for. -/
theorem bounds (run : Committed spec init history slots order state) (client : ι) :
    completed client history <+: ofClient client order ∧
      (ofClient client order).map Prod.fst <+: invocations client history := by
  rw [run.ofClient_eq client, run.invocations_eq client, List.map_append]
  exact ⟨List.prefix_append _ _, (List.prefix_append_right_inj _).mpr (Slot.untold_le_asked _)⟩

end Committed

end Ruka.LinearHistories
