import Ruka.FrameGrammar
import Ruka.StreamDecoding

/-! Frames on a byte stream. The codec of a connection is the frame decoder
called whenever bytes have arrived; how the bytes were cut on their way makes
no difference to the frames, to the first error, or to what is left. -/
namespace Ruka.Protocol
open BigEndian StreamDecoding

/-- `RukaCodec::decode`. -/
def RukaCodec.decode (src : Bytes) : Option (Except RukaError (Option Frame) × Bytes) :=
  Frame.decode src

/-- `RukaCodec::encode`: the buffer afterwards. -/
def RukaCodec.encode (item : Frame) (dst : Bytes) : Except RukaError Bytes :=
  .ok (dst ++ item.encode)

namespace Frame
variable {frame : Frame} {frames : List Frame} {src rest more : Bytes}

private theorem totalLen_append (prefixed : 4 ≤ src.length) (more : Bytes) :
    totalLen (src ++ more) = totalLen src := by
  rw [totalLen, List.take_append_of_le_length prefixed, totalLen]

/-- Every read the decoder makes finds its bytes. -/
theorem decode_total (src : Bytes) : ∃ answer, decode src = some answer := by
  rw [decode_eq]
  split
  · exact ⟨_, rfl⟩
  split
  · exact ⟨_, rfl⟩
  split
  · exact ⟨_, rfl⟩
  split
  · exact ⟨_, rfl⟩
  have long : minHeaderSize ≤ ((src.drop 4).take (totalLen src)).length := by
    rw [List.length_take, List.length_drop]
    omega
  rw [decodeBody_eq long]
  exact ⟨_, rfl⟩

private theorem decode_waits (waits : decode src = some (.ok none, rest)) : rest = src := by
  rw [decode_eq] at waits
  split at waits
  · cases waits
    rfl
  split at waits
  · cases waits
  split at waits
  · cases waits
  split at waits
  · cases waits
    rfl
  obtain ⟨answer, -, shape⟩ := Option.map_eq_some_iff.mp waits
  cases answer <;> cases shape

/-- A frame uses up its length field and as many bytes as that announces. -/
theorem decode_consumes (gives : decode src = some (.ok (some frame), rest)) :
    4 + totalLen src ≤ src.length ∧ rest = src.drop (4 + totalLen src) := by
  rw [decode_eq] at gives
  split at gives
  · cases gives
  split at gives
  · cases gives
  split at gives
  · cases gives
  split at gives
  · cases gives
  rename_i arrived
  obtain ⟨answer, -, shape⟩ := Option.map_eq_some_iff.mp gives
  cases answer <;> cases shape
  exact ⟨Nat.not_lt.mp arrived, rfl⟩

/-- Once the decoder has answered, more bytes change nothing but what is left. -/
theorem decode_stable (more : Bytes) (answered : decode src = some (answer, rest))
    (settled : answer ≠ .ok none) : decode (src ++ more) = some (answer, rest ++ more) := by
  rw [decode_eq] at answered
  split at answered
  · cases answered
    exact absurd rfl settled
  rename_i prefixed
  have sameLen := totalLen_append (Nat.not_lt.mp prefixed) more
  have stillPrefixed : ¬ (src ++ more).length < 4 := by
    rw [List.length_append]
    omega
  rw [decode_eq, sameLen, if_neg stillPrefixed]
  split at answered
  · rename_i large
    cases answered
    rw [if_pos large]
  rename_i limit
  split at answered
  · rename_i small
    cases answered
    rw [if_neg limit, if_pos small]
  rename_i long
  split at answered
  · cases answered
    exact absurd rfl settled
  rename_i arrived
  have stillArrived : ¬ (src ++ more).length < 4 + totalLen src := by
    rw [List.length_append]
    omega
  have sameBody : ((src ++ more).drop 4).take (totalLen src) =
      (src.drop 4).take (totalLen src) := by
    rw [List.drop_append_of_le_length (by omega), List.take_append_of_le_length]
    rw [List.length_drop]
    omega
  rw [if_neg limit, if_neg long, if_neg stillArrived, sameBody,
    List.drop_append_of_le_length (Nat.not_lt.mp arrived)]
  obtain ⟨result, decoded, shape⟩ := Option.map_eq_some_iff.mp answered
  cases shape
  rw [decoded]
  rfl

theorem decode_incremental : Incremental RukaCodec.decode where
  total := decode_total
  waits _ _ := decode_waits
  consumes src _ rest gives := by
    obtain ⟨arrived, rfl⟩ := decode_consumes gives
    rw [List.length_drop]
    omega
  stable _ more _ _ := decode_stable more

private theorem decode_nil : RukaCodec.decode [] = some (.ok none, []) := rfl

/-- Whatever bytes a peer sends, decoding reads none that are not there, waits
without touching the buffer, takes exactly one frame at a time, and does not
depend on how the bytes arrive. -/
theorem decode_hostile_bytes (src : Bytes) :
    (∃ answer rest, decode src = some (answer, rest)) ∧
    (∀ rest, decode src = some (.ok none, rest) → rest = src) ∧
    (∀ frame rest, decode src = some (.ok (some frame), rest) →
      4 + totalLen src ≤ src.length ∧ rest = src.drop (4 + totalLen src)) ∧
    ∀ chunks others : List Bytes, chunks.flatten = src → others.flatten = src →
      let session := feed RukaCodec.decode [] chunks
      let other := feed RukaCodec.decode [] others
      session.outputs.flatten = other.outputs.flatten ∧ session.ending = other.ending ∧
        session.unconsumed = other.unconsumed ∧
        (session.ending = .waiting ∨ ∃ error, session.ending = .failed error) := by
  obtain ⟨⟨answer, rest⟩, answered⟩ := decode_total src
  refine ⟨⟨answer, rest, answered⟩, fun _ => decode_waits, fun _ _ => decode_consumes, ?_⟩
  intro chunks others cut otherCut
  have whole := decode_incremental.feed_eq_poll chunks decode_nil
  have otherWhole := decode_incremental.feed_eq_poll others decode_nil
  rw [cut, List.nil_append] at whole
  rw [otherCut, List.nil_append, ← whole, Reading.mk.injEq] at otherWhole
  obtain ⟨items, ending, unconsumed⟩ := otherWhole
  refine ⟨items.symm, ending.symm, unconsumed.symm, ?_⟩
  have ends := decode_incremental.poll_ending src
  rwa [← whole] at ends

/-- One frame and the start of the next, whole or cut inside its first length field. -/
theorem decode_hostile_bytes_cut :
    let bytes := (⟨magicByte, .produce, 1, "t", 0, [7]⟩ : Frame).encode ++ [0, 0]
    [bytes.take 3, bytes.drop 3].flatten = bytes ∧ [bytes].flatten = bytes ∧
      (feed RukaCodec.decode [] [bytes.take 3, bytes.drop 3]).outputs.flatten =
        (feed RukaCodec.decode [] [bytes]).outputs.flatten := by
  intro bytes
  have cut : [bytes.take 3, bytes.drop 3].flatten = bytes := by simp
  have whole : [bytes].flatten = bytes := by simp
  exact ⟨cut, whole, ((decode_hostile_bytes bytes).2.2.2 _ _ cut whole).1⟩

/-- A frame the encoder's peer accepts. -/
structure Sendable (frame : Frame) : Prop extends frame.WellFormed where
  limit : frame.bodyLen ≤ maxFrameSize

/-- A frame that has not fully arrived is waited for. -/
theorem decode_short (sendable : frame.Sendable) (starts : src <+: frame.encode)
    (cut : src.length < frame.encode.length) : decode src = some (.ok none, src) := by
  obtain ⟨⟨answer, rest⟩, answered⟩ := decode_total src
  by_cases waits : answer = .ok none
  · subst waits
    rw [answered, decode_waits answered]
  -- An answer now would be the answer to the whole frame, with the missing bytes left.
  obtain ⟨missing, whole⟩ := starts
  have settled := decode_stable missing answered waits
  have complete := decode_encode_of_wellFormed sendable.toWellFormed sendable.limit []
  rw [whole, ← List.append_nil frame.encode, complete] at settled
  simp only [Option.some.injEq, Prod.mk.injEq, List.nil_eq, List.append_eq_nil_iff] at settled
  rw [← whole, settled.2.2, List.append_nil] at cut
  omega

/-- What a reader makes of the first bytes of some encodings: the frames whose
last byte is among them, and the rest kept. -/
theorem poll_starts (sendable : ∀ frame ∈ frames, frame.Sendable)
    (starts : src <+: frames.flatMap encode) :
    let reading := poll RukaCodec.decode src
    reading.ending = .waiting ∧ reading.items <+: frames ∧
      src = reading.items.flatMap encode ++ reading.rest ∧
      ∀ count ≤ frames.length, count ≤ reading.items.length ↔
        ((frames.take count).flatMap encode).length ≤ src.length := by
  induction frames generalizing src with
  | nil =>
    rw [List.prefix_nil.mp starts]
    refine ⟨rfl, List.prefix_rfl, rfl, fun count none => ?_⟩
    simp [Nat.le_zero.mp none]
  | cons frame later ih =>
    have first := sendable frame List.mem_cons_self
    have others := fun other member => sendable other (List.mem_cons_of_mem frame member)
    rw [List.flatMap_cons] at starts
    by_cases cut : src.length < frame.encode.length
    · have inside :=
        List.prefix_of_prefix_length_le starts (List.prefix_append _ _) (Nat.le_of_lt cut)
      rw [decode_incremental.poll_waiting (decode_short first inside cut)]
      refine ⟨rfl, List.nil_prefix, rfl, fun count _ => ?_⟩
      cases count with
      | zero => simp
      | succ count =>
        simp only [List.length_nil, List.take_succ_cons, List.flatMap_cons, List.length_append]
        omega
    · have complete :=
        List.prefix_of_prefix_length_le (List.prefix_append _ _) starts (Nat.not_lt.mp cut)
      obtain ⟨src, rfl⟩ := complete
      obtain ⟨dry, items, bytes, counts⟩ := ih others ((List.prefix_append_right_inj _).mp starts)
      have gives := decode_encode_of_wellFormed first.toWellFormed first.limit src
      rw [decode_incremental.poll_item gives]
      refine ⟨dry, List.cons_prefix_cons.mpr ⟨rfl, items⟩, ?_, fun count bound => ?_⟩
      · rw [Reading.after_items, Reading.after_rest, List.flatMap_append, List.append_assoc,
          ← bytes, List.flatMap_singleton]
      · cases count with
        | zero => simp
        | succ count =>
          have tail := counts count (Nat.le_of_succ_le_succ bound)
          simp only [Reading.after_items, List.singleton_append, List.length_cons,
            List.take_succ_cons, List.flatMap_cons, List.length_append]
          omega

/-- Well formed frames sent one after the other arrive as they are, in order,
each with the chunk that holds its last byte. -/
theorem frames_survive_chunking (frames : List Frame) (chunks : List Bytes)
    (sendable : ∀ frame ∈ frames, frame.Sendable) (sent : chunks.flatten = frames.flatMap encode) :
    let session := feed RukaCodec.decode [] chunks
    session.outputs.flatten = frames ∧ session.ending = .waiting ∧ session.unconsumed = [] ∧
      session.outputs.length = chunks.length ∧
      ∀ arrived, ∀ count ≤ frames.length,
        count ≤ (session.outputs.take arrived).flatten.length ↔
          ((frames.take count).flatMap encode).length ≤ (chunks.take arrived).flatten.length := by
  intro session
  have whole := decode_incremental.feed_eq_poll chunks decode_nil
  rw [sent, List.nil_append] at whole
  obtain ⟨dry, items, bytes, counts⟩ :=
    poll_starts sendable (List.prefix_refl (frames.flatMap encode))
  have all := (counts frames.length (Nat.le_refl _)).mpr (by rw [List.take_length])
  have same := items.eq_of_length_le all
  rw [same, List.self_eq_append_right] at bytes
  rw [← whole] at dry same bytes
  refine ⟨same, dry, bytes, Incremental.length_outputs dry, fun arrived count bound => ?_⟩
  have starts : (chunks.take arrived).flatten <+: frames.flatMap encode := by
    rw [← sent]
    exact (List.take_prefix arrived chunks).flatten
  have reads := decode_incremental.feed_eq_poll (chunks.take arrived) decode_nil
  rw [List.nil_append] at reads
  have counted := (poll_starts sendable starts).2.2.2 count bound
  rwa [← reads, Incremental.feed_take] at counted

/-- Two frames whose boundary and second length field fall inside a chunk. -/
theorem frames_survive_chunking_two :
    let first : Frame := ⟨magicByte, .produce, 1, "t", 0, [7]⟩
    let second : Frame := ⟨magicByte, .error, 2, "", 0, []⟩
    let bytes := first.encode ++ second.encode
    (feed RukaCodec.decode [] [bytes.take 24, bytes.drop 24]).outputs.flatten =
      [first, second] := by
  intro first second bytes
  have sendable : ∀ frame ∈ [first, second], frame.Sendable := by
    intro frame member
    simp only [List.mem_cons, List.not_mem_nil, or_false] at member
    rcases member with rfl | rfl
    · exact ⟨⟨rfl, by decide +kernel, by decide +kernel⟩, by decide +kernel⟩
    · exact ⟨⟨rfl, fun _ => rfl, by decide +kernel⟩, by decide +kernel⟩
  exact (frames_survive_chunking [first, second] _ sendable (by simp [bytes])).1

end Frame

end Ruka.Protocol
