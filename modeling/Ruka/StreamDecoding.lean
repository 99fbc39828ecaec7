import Mathlib.Data.List.Basic

/-! Decoders fed from a stream. A decoder takes items off the front of a buffer
and may ask for more bytes; the reader calls it until it does, each time a
chunk has arrived. What a decoder has to keep for the cuts between the chunks
not to matter is `Incremental`. -/
namespace Ruka.StreamDecoding

/-- An answer and the buffer afterwards; no result where the process stops. -/
abbrev Decoder (α ε φ : Type) := List α → Option (Except ε (Option φ) × List α)

/-- Why a reader stopped calling. -/
inductive Ending (ε : Type) where
  | waiting
  | failed (error : ε)
  | stopped
  | endless
  deriving DecidableEq

/-- The items one arrival gave, and the buffer it left. -/
structure Reading (α ε φ : Type) where
  items : List φ
  ending : Ending ε
  rest : List α
  deriving DecidableEq

def Reading.after (items : List φ) (reading : Reading α ε φ) : Reading α ε φ :=
  { reading with items := items ++ reading.items }

/-- Call the decoder until it waits or fails, at most `fuel` times. -/
def drain (decode : Decoder α ε φ) : Nat → List α → Reading α ε φ
  | 0, src => ⟨[], .endless, src⟩
  | fuel + 1, src =>
    match decode src with
    | none => ⟨[], .stopped, src⟩
    | some (.error error, rest) => ⟨[], .failed error, rest⟩
    | some (.ok none, rest) => ⟨[], .waiting, rest⟩
    | some (.ok (some item), rest) => (drain decode fuel rest).after [item]

/-- A call for every element and one more: enough for a decoder that consumes. -/
def poll (decode : Decoder α ε φ) (src : List α) : Reading α ε φ :=
  drain decode (src.length + 1) src

/-- Call the decoder `count` times; every call has to give an item. -/
def takeItems (decode : Decoder α ε φ) : Nat → List α → Option (List φ × List α)
  | 0, src => some ([], src)
  | count + 1, src =>
    match decode src with
    | some (.ok (some item), rest) =>
      (takeItems decode count rest).map fun (items, left) => (item :: items, left)
    | _ => none

/-- What a reader has seen of a stream: the items after each chunk, why it
stopped, and everything not consumed. -/
structure Session (α ε φ : Type) where
  outputs : List (List φ)
  ending : Ending ε
  unconsumed : List α
  deriving DecidableEq

/-- Append the chunks to the buffer one by one, and read after each of them. -/
def feed (decode : Decoder α ε φ) (buffer : List α) : List (List α) → Session α ε φ
  | [] => ⟨[], .waiting, buffer⟩
  | chunk :: later =>
    let reading := poll decode (buffer ++ chunk)
    match reading.ending with
    | .waiting =>
      let session := feed decode reading.rest later
      { session with outputs := reading.items :: session.outputs }
    | ending => ⟨[reading.items], ending, reading.rest ++ later.flatten⟩

/-- An item is read back from its encoding, whatever follows. -/
def ReadsBack (decode : Decoder α ε φ) (encode : φ → List α) (item : φ) : Prop :=
  ∀ rest, decode (encode item ++ rest) = some (.ok (some item), rest)

/-- Items written one behind the other are read one after the other. -/
theorem takeItems_flatMap {decode : Decoder α ε φ} {encode : φ → List α} (items : List φ)
    (reads : ∀ item ∈ items, ReadsBack decode encode item) (rest : List α) :
    takeItems decode items.length (items.flatMap encode ++ rest) = some (items, rest) := by
  induction items with
  | nil => rfl
  | cons item items ih =>
    have first := reads item List.mem_cons_self (items.flatMap encode ++ rest)
    have later := ih fun other member => reads other (List.mem_cons_of_mem _ member)
    rw [List.flatMap_cons, List.append_assoc, List.length_cons, takeItems, first]
    simp only [later, Option.map_some]

/-- Where no encoding is empty the number of items need not be known. -/
theorem flatMap_encode_inj {decode : Decoder α ε φ} {encode : φ → List α}
    (nonempty : ∀ item, encode item ≠ []) (items others : List φ)
    (reads : ∀ item ∈ items, ReadsBack decode encode item)
    (readsOthers : ∀ item ∈ others, ReadsBack decode encode item)
    (same : items.flatMap encode = others.flatMap encode) : items = others := by
  induction items generalizing others with
  | nil =>
    cases others with
    | nil => rfl
    | cons other others =>
      rw [List.flatMap_nil, List.flatMap_cons, eq_comm, List.append_eq_nil_iff] at same
      exact absurd same.1 (nonempty other)
  | cons item items ih =>
    cases others with
    | nil =>
      rw [List.flatMap_nil, List.flatMap_cons, List.append_eq_nil_iff] at same
      exact absurd same.1 (nonempty item)
    | cons other others =>
      have first := reads item List.mem_cons_self (items.flatMap encode)
      have second := readsOthers other List.mem_cons_self (others.flatMap encode)
      rw [← List.flatMap_cons, same, List.flatMap_cons, second] at first
      obtain ⟨answer, behind⟩ := Prod.mk.inj (Option.some.inj first)
      obtain rfl : other = item := Option.some.inj (Except.ok.inj answer)
      have rest := ih others (fun found member => reads found (List.mem_cons_of_mem _ member))
        (fun found member => readsOthers found (List.mem_cons_of_mem _ member)) behind.symm
      rw [rest]

/-- Every call answers, an item uses up part of the buffer, waiting uses up
nothing, and an answer other than waiting stays the same behind more bytes. -/
structure Incremental (decode : Decoder α ε φ) : Prop where
  total : ∀ src, ∃ answer, decode src = some answer
  waits : ∀ src rest, decode src = some (.ok none, rest) → rest = src
  consumes : ∀ src item rest, decode src = some (.ok (some item), rest) → rest.length < src.length
  stable : ∀ src more answer rest, decode src = some (answer, rest) → answer ≠ .ok none →
    decode (src ++ more) = some (answer, rest ++ more)

/-- A decoder whose items are checked as they come. -/
def Decoder.checked (decode : Decoder α ε φ) (check : φ → Option (Except ε ψ)) :
    Decoder α ε ψ := fun src =>
  match decode src with
  | none => none
  | some (.error error, rest) => some (.error error, rest)
  | some (.ok none, rest) => some (.ok none, rest)
  | some (.ok (some item), rest) => (check item).map fun answer => (answer.map some, rest)

@[simp] theorem Reading.after_items (items : List φ) (reading : Reading α ε φ) :
    (reading.after items).items = items ++ reading.items := rfl

@[simp] theorem Reading.after_ending (items : List φ) (reading : Reading α ε φ) :
    (reading.after items).ending = reading.ending := rfl

@[simp] theorem Reading.after_rest (items : List φ) (reading : Reading α ε φ) :
    (reading.after items).rest = reading.rest := rfl

theorem Reading.after_after (first second : List φ) (reading : Reading α ε φ) :
    (reading.after second).after first = reading.after (first ++ second) := by
  simp [Reading.after]

namespace Incremental
variable {decode : Decoder α ε φ} {src rest more buffer : List α} {chunks : List (List α)}

/-- A check that answers every item keeps a decoder incremental. -/
theorem checked {check : φ → Option (Except ε ψ)} (incremental : Incremental decode)
    (answers : ∀ item, ∃ answer, check item = some answer) :
    Incremental (decode.checked check) where
  total src := by
    obtain ⟨⟨answer, rest⟩, decoded⟩ := incremental.total src
    unfold Decoder.checked
    match answer, decoded with
    | .error error, decoded => exact ⟨_, by rw [decoded]⟩
    | .ok none, decoded => exact ⟨_, by rw [decoded]⟩
    | .ok (some item), decoded =>
      obtain ⟨verdict, given⟩ := answers item
      exact ⟨(verdict.map some, rest), by simp only [decoded, given, Option.map_some]⟩
  waits src rest waits := by
    unfold Decoder.checked at waits
    split at waits
    · cases waits
    · cases waits
    · rename_i decoded
      cases waits
      exact incremental.waits _ _ decoded
    · obtain ⟨verdict, -, same⟩ := Option.map_eq_some_iff.mp waits
      cases verdict <;> cases same
  consumes src item rest gives := by
    unfold Decoder.checked at gives
    split at gives
    · cases gives
    · cases gives
    · cases gives
    · rename_i decoded
      obtain ⟨verdict, -, same⟩ := Option.map_eq_some_iff.mp gives
      cases verdict with
      | error error => cases same
      | ok found =>
        cases same
        exact incremental.consumes _ _ _ decoded
  stable src more answer rest answered settled := by
    unfold Decoder.checked at answered ⊢
    split at answered
    · cases answered
    · rename_i decoded
      cases answered
      rw [incremental.stable _ more _ _ decoded nofun]
    · cases answered
      exact absurd rfl settled
    · rename_i decoded
      obtain ⟨verdict, given, same⟩ := Option.map_eq_some_iff.mp answered
      cases same
      simp only [incremental.stable _ more _ _ decoded nofun, given, Option.map_some]

/-- Fuel beyond the length of the buffer changes nothing. -/
theorem drain_eq_poll (incremental : Incremental decode) (enough : src.length < fuel) :
    drain decode fuel src = poll decode src := by
  induction fuel using Nat.strongRecOn generalizing src with
  | _ fuel ih =>
    cases fuel with
    | zero => omega
    | succ fuel =>
      unfold poll drain
      split
      · rfl
      · rfl
      · rfl
      · rename_i item rest answered
        have shorter := incremental.consumes _ _ _ answered
        by_cases same : src.length = fuel
        · rw [same]
        · rw [ih fuel (by omega) (by omega), ih src.length (by omega) shorter]

theorem poll_waiting (incremental : Incremental decode)
    (waits : decode src = some (.ok none, rest)) : poll decode src = ⟨[], .waiting, src⟩ := by
  rw [poll, drain, waits, incremental.waits _ _ waits]

theorem poll_failed (fails : decode src = some (.error error, rest)) :
    poll decode src = ⟨[], .failed error, rest⟩ := by
  rw [poll, drain, fails]

theorem poll_item (incremental : Incremental decode)
    (gives : decode src = some (.ok (some item), rest)) :
    poll decode src = (poll decode rest).after [item] := by
  have shorter := incremental.consumes _ _ _ gives
  rw [poll, drain, gives]
  simp only [incremental.drain_eq_poll shorter]

/-- Induction along the calls a reader makes. -/
theorem call_induction (incremental : Incremental decode) {motive : List α → Prop}
    (waiting : ∀ src, decode src = some (.ok none, src) → motive src)
    (failed : ∀ src error rest, decode src = some (.error error, rest) → motive src)
    (item : ∀ src item rest, decode src = some (.ok (some item), rest) → motive rest → motive src)
    (src : List α) : motive src := by
  induction length : src.length using Nat.strongRecOn generalizing src with
  | _ n ih =>
    obtain ⟨⟨answer, rest⟩, answered⟩ := incremental.total src
    match answer, answered with
    | .ok none, answered =>
      have same := incremental.waits _ _ answered
      exact waiting src (same ▸ answered)
    | .error error, answered => exact failed src error rest answered
    | .ok (some found), answered =>
      have shorter := incremental.consumes _ _ _ answered
      exact item src found rest answered (ih rest.length (by omega) rest rfl)

/-- A reader ends by waiting or with an error, never otherwise. -/
theorem poll_ending (incremental : Incremental decode) (src : List α) :
    (poll decode src).ending = .waiting ∨ ∃ error, (poll decode src).ending = .failed error := by
  induction src using incremental.call_induction with
  | waiting src waits => exact .inl (by rw [incremental.poll_waiting waits])
  | failed src error rest fails => exact .inr ⟨error, by rw [poll_failed fails]⟩
  | item src item rest gives ih => rwa [incremental.poll_item gives]

/-- What a reader that waits has left makes it wait again. -/
theorem poll_rest (incremental : Incremental decode) (waits : (poll decode src).ending = .waiting) :
    decode (poll decode src).rest = some (.ok none, (poll decode src).rest) := by
  induction src using incremental.call_induction with
  | waiting src answered => rwa [incremental.poll_waiting answered]
  | failed src error rest fails =>
    rw [poll_failed fails] at waits
    cases waits
  | item src item rest gives ih =>
    rw [incremental.poll_item gives] at waits ⊢
    exact ih waits

/-- Bytes behind a buffer that ran dry are read after what it held. -/
theorem poll_append_of_waiting (incremental : Incremental decode)
    (waits : (poll decode src).ending = .waiting) :
    poll decode (src ++ more) = (poll decode ((poll decode src).rest ++ more)).after
      (poll decode src).items := by
  induction src using incremental.call_induction with
  | waiting src answered =>
    rw [incremental.poll_waiting answered]
    rfl
  | failed src error rest fails =>
    rw [poll_failed fails] at waits
    cases waits
  | item src item rest gives ih =>
    have longer := incremental.stable _ more _ _ gives nofun
    rw [incremental.poll_item gives] at waits ⊢
    rw [incremental.poll_item longer, ih waits, Reading.after_after]
    rfl

/-- Bytes behind an error stay where they are. -/
theorem poll_append_of_failed (incremental : Incremental decode)
    (fails : (poll decode src).ending = .failed error) :
    poll decode (src ++ more) = { poll decode src with rest :=
      (poll decode src).rest ++ more } := by
  induction src using incremental.call_induction with
  | waiting src answered =>
    rw [incremental.poll_waiting answered] at fails
    cases fails
  | failed src found rest answered =>
    have longer := incremental.stable _ more _ _ answered nofun
    rw [poll_failed longer, poll_failed answered]
  | item src item rest gives ih =>
    have longer := incremental.stable _ more _ _ gives nofun
    rw [incremental.poll_item gives] at fails ⊢
    rw [incremental.poll_item longer, ih fails]
    rfl

/-- Reading chunk by chunk is reading everything at once. -/
theorem feed_eq_poll (incremental : Incremental decode) (chunks : List (List α))
    (waits : decode buffer = some (.ok none, buffer)) :
    (⟨(feed decode buffer chunks).outputs.flatten, (feed decode buffer chunks).ending,
        (feed decode buffer chunks).unconsumed⟩ : Reading α ε φ) =
          poll decode (buffer ++ chunks.flatten) := by
  induction chunks generalizing buffer with
  | nil =>
    rw [List.flatten_nil, List.append_nil, incremental.poll_waiting waits, feed, List.flatten_nil]
  | cons chunk later ih =>
    have regrouped :
        buffer ++ (chunk :: later).flatten = buffer ++ chunk ++ later.flatten := by simp
    rw [regrouped, feed]
    rcases incremental.poll_ending (buffer ++ chunk) with dry | ⟨error, failed⟩
    · rw [incremental.poll_append_of_waiting dry, ← ih (incremental.poll_rest dry)]
      simp [dry, Reading.after]
    · rw [incremental.poll_append_of_failed failed]
      simp [failed]

/-- Feeding fewer chunks gives the first of the outputs. -/
theorem feed_take (decode : Decoder α ε φ) (buffer : List α) (chunks : List (List α))
    (count : Nat) : (feed decode buffer (chunks.take count)).outputs =
      (feed decode buffer chunks).outputs.take count := by
  induction chunks generalizing buffer count with
  | nil => simp [feed]
  | cons chunk later ih =>
    cases count with
    | zero => simp [feed]
    | succ count =>
      simp only [List.take_succ_cons, feed]
      split
      · rw [List.take_succ_cons, ih]
      · simp

/-- A reader that never failed has an output for each chunk. -/
theorem length_outputs (waits : (feed decode buffer chunks).ending = .waiting) :
    (feed decode buffer chunks).outputs.length = chunks.length := by
  induction chunks generalizing buffer with
  | nil => rfl
  | cons chunk later ih =>
    rw [feed] at waits ⊢
    split at waits
    · simp only [List.length_cons]
      rw [ih waits]
    · rename_i other
      exact absurd waits other

end Incremental

end Ruka.StreamDecoding
