import Mathlib.Data.List.Basic

/-! Conversations. What a party has shown so far is one whole exchange after the
other and the first part of another one. A step of its own goes on with that one or
ends it, and a step of somebody else shows nothing of it. What is read off the whole
can be read off its exchanges. -/
namespace Ruka.Conversations

variable {rows : ε → List τ} {shown pending : List τ} {exchanges : List ε}

/-- The exchanges one after the other, and `pending` of another one. -/
def InOrder (rows : ε → List τ) (shown : List τ) (exchanges : List ε) (pending : List τ) : Prop :=
  shown = exchanges.flatMap rows ++ pending

namespace InOrder

theorem start (rows : ε → List τ) : InOrder rows [] [] [] := rfl

/-- The exchange under way goes on. -/
theorem goesOn (order : InOrder rows shown exchanges pending) (grown : later = pending ++ more) :
    InOrder rows (shown ++ more) exchanges later := by
  rw [InOrder, order, grown, List.append_assoc]

/-- The exchange under way ends. -/
theorem ends (order : InOrder rows shown exchanges pending)
    (whole : rows exchange = pending ++ more) :
    InOrder rows (shown ++ more) (exchanges ++ [exchange]) [] := by
  rw [InOrder, order, List.append_nil, List.flatMap_append, List.flatMap_singleton, whole,
    List.append_assoc]

theorem flatMap (order : InOrder rows shown exchanges pending) (part : τ → List ρ) :
    InOrder (fun exchange => (rows exchange).flatMap part) (shown.flatMap part) exchanges
      (pending.flatMap part) := by
  rw [InOrder, order, List.flatMap_append, List.flatMap_assoc]

/-- The exchange under way shows nothing of this part. -/
theorem complete (order : InOrder rows shown exchanges pending) (nothing : pending = []) :
    shown = exchanges.flatMap rows := by
  rw [order, nothing, List.append_nil]

end InOrder

end Ruka.Conversations
