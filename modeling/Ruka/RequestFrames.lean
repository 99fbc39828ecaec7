import Ruka.FrameStreams

/-! Requests and the frames that carry them, in both directions. -/
namespace Ruka.Protocol
open BigEndian

namespace Request

/-- The messages of a batch, each behind its length. -/
def writePayloads (payloads : List Bytes) : Bytes :=
  payloads.flatMap fun payload => beBytes 4 payload.length ++ payload

private theorem readPayloads_writePayloads (small : ∀ payload ∈ messages, payload.length < 2 ^ 32)
    (rest : Bytes) : readPayloads messages.length (writePayloads messages ++ rest) =
      some (.ok (messages, rest)) := by
  induction messages with
  | nil => rfl
  | cons payload later ih =>
    have fits : payload.length < 256 ^ 4 := small payload List.mem_cons_self
    have others := ih fun other member => small other (List.mem_cons_of_mem payload member)
    have shape : writePayloads (payload :: later) ++ rest =
        beBytes 4 payload.length ++ (payload ++ (writePayloads later ++ rest)) := by
      simp [writePayloads]
    have prefixed : ¬ (beBytes 4 payload.length ++
        (payload ++ (writePayloads later ++ rest))).length < 4 := by simp
    have enough : ¬ (payload ++ (writePayloads later ++ rest)).length < payload.length := by simp
    rw [shape, List.length_cons, readPayloads, if_neg prefixed, getUint_beBytes_of_lt fits]
    simp only [Option.bind_eq_bind, Option.bind_some, if_neg enough, splitTo_append, others]
    rfl

/-- What was read is what would be written. -/
theorem writePayloads_of_readPayloads
    (accepted : readPayloads count src = some (.ok (messages, rest))) :
    messages.length = count ∧ src = writePayloads messages ++ rest := by
  induction count generalizing src messages with
  | zero =>
    cases accepted
    exact ⟨rfl, rfl⟩
  | succ count ih =>
    unfold readPayloads at accepted
    split at accepted
    · cases accepted
    replace accepted := getUint_bind_eq_some accepted
    obtain ⟨msgLen, src, rfl, -, accepted⟩ := accepted
    simp only at accepted
    split at accepted
    · cases accepted
    replace accepted := splitTo_bind_eq_some accepted
    obtain ⟨message, src, rfl, length, accepted⟩ := accepted
    obtain ⟨answer, later, accepted⟩ := Option.bind_eq_some_iff.mp accepted
    cases answer with
    | error error => cases accepted
    | ok found =>
      cases accepted
      obtain ⟨counted, rfl⟩ := ih later
      refine ⟨by rw [List.length_cons, counted], ?_⟩
      simp [writePayloads, length]

private theorem readPayloads_total (count : Nat) (src : Bytes) :
    ∃ answer, readPayloads count src = some answer := by
  induction count generalizing src with
  | zero => exact ⟨_, rfl⟩
  | succ count ih =>
    unfold readPayloads
    split
    · exact ⟨_, rfl⟩
    rename_i prefixed
    rw [getUint_of_le (Nat.not_lt.mp prefixed)]
    simp only [Option.bind_eq_bind, Option.bind_some]
    split
    · exact ⟨_, rfl⟩
    rename_i enough
    obtain ⟨answer, read⟩ := ih ((src.drop 4).drop (beNat (src.take 4)))
    rw [splitTo_of_le (Nat.not_lt.mp enough), Option.bind_some, read, Option.bind_some]
    cases answer <;> exact ⟨_, rfl⟩

/-- No frame makes the parser read outside its payload. -/
theorem fromFrame_total (frame : Frame) : ∃ answer, fromFrame frame = some answer := by
  unfold fromFrame
  split
  · exact ⟨_, rfl⟩
  · exact ⟨_, rfl⟩
  · split
    · exact ⟨_, rfl⟩
    rename_i prefixed
    obtain ⟨answer, read⟩ :=
      readPayloads_total (beNat (frame.payload.take 4)) (frame.payload.drop 4)
    rw [getUint_of_le (Nat.not_lt.mp prefixed)]
    simp only [Option.bind_eq_bind, Option.bind_some, read]
    cases answer with
    | error error => exact ⟨_, rfl⟩
    | ok found =>
      dsimp only
      split <;> exact ⟨_, rfl⟩
  · split
    · exact ⟨_, rfl⟩
    rename_i twelve
    have length : frame.payload.length = 12 := Decidable.not_not.mp twelve
    have second : 4 ≤ (frame.payload.drop 8).length := by
      rw [List.length_drop]
      omega
    rw [getUint_of_le (by omega)]
    simp only [Option.bind_eq_bind, Option.bind_some, getUint_of_le second]
    exact ⟨_, rfl⟩

private theorem produceBatch_intoFrame_payload (request : ProduceBatchRequest) :
    (intoFrame (.produceBatch request)).payload =
      beBytes 4 request.payloads.length ++ writePayloads request.payloads := rfl

/-- A request whose lengths fit their fields comes back from its frame. -/
theorem fromFrame_intoFrame (request : Request) (count : request.payloads.length < 2 ^ 32)
    (small : ∀ payload ∈ request.payloads, payload.length < 2 ^ 32) :
    fromFrame request.intoFrame = some (.ok request) := by
  cases request with
  | produce request => rfl
  | produceBatch request =>
    have fits : request.payloads.length < 256 ^ 4 := count
    have read := readPayloads_writePayloads small []
    rw [List.append_nil] at read
    have counted := getUint_beBytes_of_lt fits (writePayloads request.payloads)
    have prefixed : ¬ (beBytes 4 request.payloads.length ++
        writePayloads request.payloads).length < 4 := by simp
    have payload := produceBatch_intoFrame_payload request
    have isBatch : (intoFrame (.produceBatch request)).apiKey = .produceBatch := rfl
    unfold fromFrame
    rw [isBatch, payload]
    dsimp only
    rw [if_neg prefixed, counted]
    refine (congrArg (Option.bind · _) read).trans ?_
    rfl
  | fetch request =>
    have offset := getUint_beBytes_of_lt (show request.offset.toNat < 256 ^ 8 from
      request.offset.toNat_lt) (beBytes 4 request.maxBytes.toNat)
    have maxBytes :=
      getUint_beBytes_of_lt (show request.maxBytes.toNat < 256 ^ 4 from
        request.maxBytes.toNat_lt) []
    rw [List.append_nil] at maxBytes
    simp [fromFrame, intoFrame, offset, maxBytes]

/-- A request comes from no other frame than its own. -/
theorem intoFrame_of_fromFrame {frame : Frame} {request : Request}
    (isMagic : frame.magic = magicByte) (accepted : fromFrame frame = some (.ok request)) :
    request.intoFrame = frame := by
  obtain ⟨magic, apiKey, correlationId, topic, partition, payload⟩ := frame
  obtain rfl : magic = magicByte := isMagic
  cases apiKey with
  | error => cases accepted
  | produce =>
    cases accepted
    rfl
  | produceBatch =>
    unfold fromFrame at accepted
    simp only at accepted
    split at accepted
    · cases accepted
    replace accepted := getUint_bind_eq_some accepted
    obtain ⟨batchLen, body, rfl, -, accepted⟩ := accepted
    obtain ⟨answer, looped, accepted⟩ := Option.bind_eq_some_iff.mp accepted
    cases answer with
    | error error => cases accepted
    | ok found =>
      simp only at accepted
      split at accepted
      · cases accepted
      rename_i exhausted
      cases accepted
      have written := writePayloads_of_readPayloads looped
      obtain ⟨counted, rfl⟩ :
        found.1.length = batchLen ∧ body = writePayloads found.1 ++ found.2 := written
      rw [Decidable.not_not.mp exhausted, List.append_nil, ← counted]
      rfl
  | fetch =>
    unfold fromFrame at accepted
    simp only at accepted
    split at accepted
    · cases accepted
    rename_i twelve
    replace accepted := getUint_bind_eq_some accepted
    obtain ⟨offset, body, rfl, offsetWidth, accepted⟩ := accepted
    replace accepted := getUint_bind_eq_some accepted
    obtain ⟨maxBytes, body, rfl, maxBytesWidth, accepted⟩ := accepted
    cases accepted
    have exhausted : body = [] := by
      simp only [List.length_append, length_beBytes] at twelve
      exact List.eq_nil_of_length_eq_zero (by omega)
    have offsetFits : offset < 2 ^ 64 := offsetWidth
    have maxBytesFits : maxBytes < 2 ^ 32 := maxBytesWidth
    simp only [intoFrame, exhausted, List.append_nil, UInt64.toNat_ofNat', UInt32.toNat_ofNat',
      Nat.mod_eq_of_lt offsetFits, Nat.mod_eq_of_lt maxBytesFits]

/-- Requests and frames correspond: each request is read back from its frame,
each accepted frame is the one its request makes, and no frame makes the
parser read outside the payload. -/
theorem requests_correspond_to_frames :
    (∀ request : Request, request.payloads.length < 2 ^ 32 →
      (∀ payload ∈ request.payloads, payload.length < 2 ^ 32) →
      fromFrame request.intoFrame = some (.ok request)) ∧
    (∀ (frame : Frame) (request : Request), frame.magic = magicByte →
      fromFrame frame = some (.ok request) → request.intoFrame = frame) ∧
    ∀ frame : Frame, ∃ answer, fromFrame frame = some answer :=
  ⟨fromFrame_intoFrame, fun _ _ => intoFrame_of_fromFrame, fromFrame_total⟩

/-- A batch of two, there and back. -/
theorem requests_correspond_to_frames_batch :
    let request : Request := .produceBatch ⟨1, "t", 0, [[1, 2], []]⟩
    let frame : Frame :=
      ⟨magicByte, .produceBatch, 1, "t", 0, [0, 0, 0, 2, 0, 0, 0, 2, 1, 2, 0, 0, 0, 0]⟩
    fromFrame request.intoFrame = some (.ok request) ∧ request.intoFrame = frame :=
  ⟨requests_correspond_to_frames.1 _ (by decide) (by decide),
    requests_correspond_to_frames.2.1 _ _ rfl (by decide +kernel)⟩

/-- A request read from a frame that was read from some bytes. -/
def Decoded (request : Request) : Prop :=
  ∃ src frame rest, Frame.decode src = some (.ok (some frame), rest) ∧
    fromFrame frame = some (.ok request)

private theorem length_le_of_mem_writePayloads {messages : List Bytes}
    (member : payload ∈ messages) : payload.length ≤ (writePayloads messages).length := by
  induction messages with
  | nil => cases member
  | cons message later ih =>
    have shape : writePayloads (message :: later) =
        beBytes 4 message.length ++ (message ++ writePayloads later) := by
      simp [writePayloads]
    rw [shape, List.length_append, List.length_append]
    rcases List.mem_cons.mp member with rfl | tail
    · omega
    · have bound := ih tail
      omega

/-- What arrived in a frame is bounded by it. -/
theorem Decoded.payload_length {request : Request} (decoded : request.Decoded) :
    ∀ payload ∈ request.payloads, payload.length ≤ maxFrameSize := by
  obtain ⟨src, frame, rest, accepted, read⟩ := decoded
  obtain ⟨wellFormed, trailing, length, limit, -⟩ := Frame.decode_accepted accepted
  have bound : request.intoFrame.payload.length ≤ maxFrameSize := by
    rw [intoFrame_of_fromFrame wellFormed.magic read]
    simp only [Frame.bodyLen] at length
    omega
  intro payload member
  cases request with
  | produce request =>
    rw [List.mem_singleton.mp member]
    exact bound
  | produceBatch request =>
    have inside : payload.length ≤ (writePayloads request.payloads).length :=
      length_le_of_mem_writePayloads member
    rw [produceBatch_intoFrame_payload, List.length_append] at bound
    omega
  | fetch request => cases member

end Request

end Ruka.Protocol
