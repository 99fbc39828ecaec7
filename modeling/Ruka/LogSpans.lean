import Ruka.AppendOnlyRefinement
import Ruka.RestartSurvival

/-! Which offsets the calls of a run wrote. An append-only list is made of
consecutive spans, one for each call in the order they were served; a call that
succeeded took all it asked for and a failed batch a first part of it. -/
namespace Ruka

/-- What a call left in the list between two offsets. -/
structure Wrote (log : List Content) (call : Request × Answer) (low high : Nat) : Prop where
  ordered : low ≤ high
  within : high ≤ low + call.1.contents.length
  whole : ∀ offset, call.2 = .offset (.ok offset) →
    offset = low ∧ high = low + call.1.contents.length
  cut : low < high → (∃ offset, call.2 = .offset (.ok offset)) ∨
    ∃ payloads, call.1 = .appendBatch payloads
  held : ∀ place < high - low, log[low + place]? = call.1.contents[place]?

/-- The list is what the calls wrote, one behind the other. -/
structure Spans (history : List (Request × Answer)) (log : List Content)
    (bound : Nat → Nat) : Prop where
  first : bound 0 = 0
  last : bound history.length = log.length
  spans : ∀ (place : Nat) call, history[place]? = some call →
    Wrote log call (bound place) (bound (place + 1))

theorem LogStep.grows (taken : LogStep limit log request answer grown) : log <+: grown := by
  cases taken with
  | appended | batchAppended | batchRefused => exact List.prefix_append _ _
  | refused | found | missing | fetched => exact List.prefix_refl _

private theorem LogStep.wrote (taken : LogStep limit log request answer grown) :
    Wrote grown (request, answer) log.length grown.length := by
  cases taken with
  | appended key value =>
    refine ⟨by simp, by simp [Request.contents], fun offset same => ?_, fun _ => .inl ⟨_, rfl⟩,
      fun place inside => ?_⟩
    · cases same
      simp [Request.contents]
    · rw [List.getElem?_append_right (Nat.le_add_right _ _), Nat.add_sub_cancel_left]
      rfl
  | batchAppended payloads =>
    refine ⟨by simp, by simp [Request.contents], fun offset same => ?_, fun _ => .inl ⟨_, rfl⟩,
      fun place inside => ?_⟩
    · cases same
      simp [Request.contents]
    · rw [List.getElem?_append_right (Nat.le_add_right _ _), Nat.add_sub_cancel_left]
      rfl
  | batchRefused taken rest =>
    have split : batchContent (taken ++ rest) = batchContent taken ++ batchContent rest :=
      List.map_append
    refine ⟨by simp, by simp [Request.contents, split], nofun, fun _ => .inr ⟨_, rfl⟩,
      fun place inside => ?_⟩
    rw [List.length_append, Nat.add_sub_cancel_left] at inside
    rw [List.getElem?_append_right (Nat.le_add_right _ _), Nat.add_sub_cancel_left]
    simp only [Request.contents, split, List.getElem?_append_left inside]
  | refused | found | missing | fetched =>
    exact ⟨Nat.le_refl _, Nat.le_add_right _ _, nofun, fun less => absurd less (Nat.lt_irrefl _),
      fun place inside => absurd inside (by simp)⟩

private theorem Wrote.mono (wrote : Wrote log call low high) (inside : high ≤ log.length)
    (grows : log <+: grown) : Wrote grown call low high where
  ordered := wrote.ordered
  within := wrote.within
  whole := wrote.whole
  cut := wrote.cut
  held := by
    intro place less
    obtain ⟨more, rfl⟩ := grows
    rw [List.getElem?_append_left (by omega)]
    exact wrote.held place less

namespace Spans
variable {history : List (Request × Answer)} {log : List Content} {bound : Nat → Nat}

/-- Calls that come later wrote higher. -/
theorem bound_mono (spans : Spans history log bound) (order : low ≤ high)
    (inside : high ≤ history.length) : bound low ≤ bound high := by
  induction high, order using Nat.le_induction with
  | base => exact Nat.le_refl _
  | succ high order ih =>
    obtain ⟨call, there⟩ : ∃ call, history[high]? = some call :=
      ⟨_, List.getElem?_eq_getElem inside⟩
    exact Nat.le_trans (ih (Nat.le_of_succ_le inside)) (spans.spans high call there).ordered

private theorem bound_le (spans : Spans history log bound) (inside : place ≤ history.length) :
    bound place ≤ log.length :=
  spans.last ▸ spans.bound_mono inside (Nat.le_refl _)

/-- One more call takes what it added to the list. -/
theorem step (spans : Spans history log bound) (taken : LogStep limit log request answer grown) :
    Spans (history ++ [(request, answer)]) grown fun place =>
      if place ≤ history.length then bound place else grown.length where
  first := by simp [spans.first]
  last := by simp
  spans := by
    intro place call there
    by_cases before : place < history.length
    · rw [List.getElem?_append_left before] at there
      rw [if_pos (Nat.le_of_lt before), if_pos (Nat.succ_le_of_lt before)]
      exact (spans.spans place call there).mono (spans.bound_le before) taken.grows
    · have inside := (List.getElem?_eq_some_iff.mp there).1
      rw [List.length_append, List.length_singleton] at inside
      obtain rfl : place = history.length := by omega
      rw [List.getElem?_concat_length] at there
      cases there
      rw [if_pos (Nat.le_refl _), if_neg (by omega), spans.last]
      exact taken.wrote

/-- Every offset of the list is in the span of one call. -/
theorem cover (spans : Spans history log bound) (offset : Nat) (inside : offset < log.length) :
    ∃ place < history.length, bound place ≤ offset ∧ offset < bound (place + 1) := by
  -- the last call whose span does not start behind the offset
  have above : ∃ place, offset < bound place := ⟨history.length, spans.last ▸ inside⟩
  have least := Nat.find_spec above
  obtain ⟨place, found⟩ : ∃ place, Nat.find above = place + 1 := by
    refine Nat.exists_eq_succ_of_ne_zero fun zero => ?_
    rw [zero, spans.first] at least
    omega
  rw [found] at least
  have below : ¬ offset < bound place := Nat.find_min above (by omega)
  refine ⟨place, ?_, by omega, least⟩
  have most : Nat.find above ≤ history.length := Nat.find_min' above (spans.last ▸ inside)
  omega

end Spans

theorem LogRun.spans (run : LogRun limit history log) : ∃ bound, Spans history log bound := by
  induction run with
  | empty => exact ⟨fun _ => 0, rfl, rfl, nofun⟩
  | step run taken ih =>
    obtain ⟨bound, spans⟩ := ih
    exact ⟨_, spans.step taken⟩

/-- A call acknowledges offsets from the end of the list on, in their order. -/
theorem LogStep.acknowledged_ascending (taken : LogStep limit log request answer grown) :
    ((Ruka.acknowledged (request, answer)).map Prod.fst).Pairwise (· < ·) ∧
      ∀ receipt ∈ Ruka.acknowledged (request, answer), log.length ≤ receipt.1 ∧
      receipt.1 < grown.length := by
  cases taken with
  | appended key value => simp [Ruka.acknowledged]
  | batchAppended payloads =>
    constructor
    · simp only [Ruka.acknowledged]
      rw [List.mapIdx_eq_zipIdx_map, List.map_map, List.pairwise_map]
      have places : (payloads.zipIdx.map Prod.snd).Pairwise (· < ·) := by
        rw [List.zipIdx_map_snd, ← List.range_eq_range']
        exact List.pairwise_lt_range
      exact (List.pairwise_map.mp places).imp fun less => Nat.add_lt_add_left less _
    · intro receipt member
      obtain ⟨place, inside, rfl⟩ := List.mem_mapIdx.mp member
      simp only [batchContent, List.length_append, List.length_map]
      omega
  | refused | batchRefused | found | missing | fetched =>
    exact ⟨.nil, fun receipt member => absurd member List.not_mem_nil⟩

/-- No offset is acknowledged twice. -/
theorem LogRun.acknowledged_ascending (run : LogRun limit history log) :
    ((history.flatMap Ruka.acknowledged).map Prod.fst).Pairwise (· < ·) := by
  induction run with
  | empty => exact .nil
  | step run taken ih =>
    rw [List.flatMap_append, List.map_append, List.pairwise_append]
    refine ⟨ih, ?_, ?_⟩
    · rw [List.flatMap_singleton]
      exact taken.acknowledged_ascending.1
    · intro low before high after
      obtain ⟨earlier, member, rfl⟩ := List.mem_map.mp before
      obtain ⟨call, called, receipt⟩ := List.mem_flatMap.mp member
      obtain ⟨later, now, rfl⟩ := List.mem_map.mp after
      rw [List.flatMap_singleton] at now
      have stored := run.acknowledged called receipt
      exact Nat.lt_of_lt_of_le (List.getElem?_eq_some_iff.mp stored).1
        (taken.acknowledged_ascending.2 later now).1

end Ruka
