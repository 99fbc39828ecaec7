import Ruka.RecordCodec

/-! The wire protocol: frames behind a length, the requests read from them and
the responses written to them. A read the decoder did not guard would stop the
connection; it has no result there. -/
namespace Ruka.Protocol
open BigEndian

def magicByte : UInt8 := 0xCA

def maxFrameSize : Nat := 16 * 1024 * 1024

def minHeaderSize : Nat := 17

/-- `types.rs::ApiKey`. -/
inductive ApiKey where
  | produce
  | fetch
  | produceBatch
  | error
  deriving DecidableEq

namespace ApiKey

/-- `ApiKey::as_u16`. -/
def code : ApiKey → Nat
  | .produce => 1
  | .fetch => 2
  | .produceBatch => 3
  | .error => 4

/-- `ApiKey::try_from`. -/
def tryFrom : Nat → Except RukaError ApiKey
  | 1 => .ok .produce
  | 2 => .ok .fetch
  | 3 => .ok .produceBatch
  | 4 => .ok .error
  | value => .error (.unknownApiKey value)

private theorem code_of_tryFrom (known : tryFrom value = .ok key) : key.code = value := by
  unfold tryFrom at known
  split at known <;> cases known <;> rfl

end ApiKey

/-- `types.rs::ErrorCode`. -/
inductive ErrorCode where
  | none
  | unknownApiKey
  | invalidFrame
  | offsetNotFound
  | partitionNotFound
  | storageError
  | messageTooLarge
  | serverError
  deriving DecidableEq

namespace ErrorCode

def code : ErrorCode → Nat
  | .none => 0
  | .unknownApiKey => 1
  | .invalidFrame => 2
  | .offsetNotFound => 3
  | .partitionNotFound => 4
  | .storageError => 5
  | .messageTooLarge => 6
  | .serverError => 7

/-- `ErrorCode::from(&RukaError)`. -/
def ofError : RukaError → ErrorCode
  | .unknownApiKey _ => .unknownApiKey
  | .invalidFrame _ => .invalidFrame
  | .invalidMagicByte _ => .invalidFrame
  | .frameTooShort .. => .invalidFrame
  | .frameTooLarge .. => .messageTooLarge
  | .messageTooLarge => .messageTooLarge
  | .invalidTopicName => .invalidFrame
  | .offsetNotFound _ => .offsetNotFound
  | .partitionNotFound .. => .partitionNotFound
  | .segmentFull .. => .storageError
  | .corruptedIndex _ => .storageError
  | .io _ => .storageError
  | .connectionReset => .serverError
  | .writeFailed _ => .serverError

end ErrorCode

/-- The UTF-8 bytes of a string. -/
def utf8 (text : String) : Bytes := text.toByteArray.data.toList

/-- `std::str::from_utf8`. -/
def fromUtf8 (bytes : Bytes) : Option String := String.fromUTF8? ⟨bytes.toArray⟩

private theorem utf8_of_fromUtf8 (valid : fromUtf8 bytes = some text) : utf8 text = bytes := by
  unfold fromUtf8 String.fromUTF8? at valid
  split at valid
  · cases valid
    rfl
  · cases valid

/-- `frame.rs::Frame`. -/
structure Frame where
  magic : UInt8
  apiKey : ApiKey
  correlationId : UInt32
  topic : String
  partition : UInt32
  payload : Bytes
  deriving DecidableEq

namespace Frame

/-- `Frame::body_len`. -/
def bodyLen (frame : Frame) : Nat :=
  1 + 2 + 4 + 2 + (utf8 frame.topic).length + 4 + 4 + frame.payload.length

/-- Everything behind the length of the frame. -/
def body (frame : Frame) : Bytes :=
  beBytes 1 frame.magic.toNat ++ beBytes 2 frame.apiKey.code ++
    beBytes 4 frame.correlationId.toNat ++ beBytes 2 (utf8 frame.topic).length ++
    utf8 frame.topic ++ beBytes 4 frame.partition.toNat ++
    beBytes 4 frame.payload.length ++ frame.payload

/-- `Frame::encode`, as the bytes it appends to its buffer. -/
def encode (frame : Frame) : Bytes := beBytes 4 frame.bodyLen ++ frame.body

@[simp] theorem length_body (frame : Frame) : frame.body.length = frame.bodyLen := by
  simp only [body, bodyLen, List.length_append, length_beBytes]

@[simp] theorem length_encode (frame : Frame) : frame.encode.length = 4 + frame.bodyLen := by
  simp [encode]

/-- `Frame::decode` behind the length: the bytes of one frame. -/
def decodeBody (buf : Bytes) : Option (Except RukaError Frame) := do
  let (magic, buf) ← getUint 1 buf
  if UInt8.ofNat magic ≠ magicByte then pure (.error (.invalidMagicByte (UInt8.ofNat magic)))
  else do
    let (apiKeyRaw, buf) ← getUint 2 buf
    match ApiKey.tryFrom apiKeyRaw with
    | .error error => pure (.error error)
    | .ok apiKey => do
      let (correlationId, buf) ← getUint 4 buf
      let (topicLen, buf) ← getUint 2 buf
      if topicLen = 0 ∧ apiKey ≠ .error then pure (.error .invalidTopicName)
      else if topicLen > 255 then pure (.error .invalidTopicName)
      else if buf.length < topicLen + 4 + 4 then
        pure (.error (.frameTooShort (topicLen + 4 + 4) buf.length))
      else do
        let (topicBytes, buf) ← splitTo topicLen buf
        match fromUtf8 topicBytes with
        | none => pure (.error .invalidTopicName)
        | some topic => do
          let (partition, buf) ← getUint 4 buf
          let (payloadLen, buf) ← getUint 4 buf
          if buf.length < payloadLen then pure (.error (.frameTooShort payloadLen buf.length))
          else do
            let (payload, _) ← splitTo payloadLen buf
            pure (.ok ⟨UInt8.ofNat magic, apiKey, UInt32.ofNat correlationId, topic,
              UInt32.ofNat partition, payload⟩)

/-- `Frame::decode`: the answer and the buffer afterwards. -/
def decode (src : Bytes) : Option (Except RukaError (Option Frame) × Bytes) :=
  if src.length < 4 then some (.ok none, src)
  else do
    let (totalLen, _) ← getUint 4 src
    if totalLen > maxFrameSize then pure (.error (.frameTooLarge maxFrameSize totalLen), src)
    else if totalLen < minHeaderSize then pure (.error (.frameTooShort minHeaderSize totalLen), src)
    else if src.length < 4 + totalLen then pure (.ok none, src)
    else do
      let (_, src) ← splitTo 4 src
      let (frameBuf, src) ← splitTo totalLen src
      let answer ← decodeBody frameBuf
      pure (answer.map some, src)

/-- What the decoder promises of a frame it accepts. -/
structure WellFormed (frame : Frame) : Prop where
  magic : frame.magic = magicByte
  named : utf8 frame.topic = [] → frame.apiKey = .error
  topic : (utf8 frame.topic).length ≤ 255

/-- An accepted frame is well formed, and its bytes start the buffer. -/
theorem decodeBody_ok (accepted : decodeBody buf = some (.ok frame)) :
    frame.WellFormed ∧ ∃ trailing, buf = frame.body ++ trailing := by
  replace accepted := getUint_bind_eq_some accepted
  obtain ⟨magic, buf, rfl, magicWidth, accepted⟩ := accepted
  simp only at accepted
  split at accepted
  · cases accepted
  rename_i isMagic
  replace accepted := getUint_bind_eq_some accepted
  obtain ⟨apiKeyRaw, buf, rfl, -, accepted⟩ := accepted
  simp only at accepted
  split at accepted
  · cases accepted
  rename_i apiKey known
  replace accepted := getUint_bind_eq_some accepted
  obtain ⟨correlationId, buf, rfl, correlationWidth, accepted⟩ := accepted
  replace accepted := getUint_bind_eq_some accepted
  obtain ⟨topicLen, buf, rfl, -, accepted⟩ := accepted
  simp only at accepted
  split at accepted
  · cases accepted
  rename_i named
  split at accepted
  · cases accepted
  rename_i short
  split at accepted
  · cases accepted
  replace accepted := splitTo_bind_eq_some accepted
  obtain ⟨topicBytes, buf, rfl, topicWidth, accepted⟩ := accepted
  simp only at accepted
  split at accepted
  · cases accepted
  rename_i topic valid
  have bytes := utf8_of_fromUtf8 valid
  replace accepted := getUint_bind_eq_some accepted
  obtain ⟨partition, buf, rfl, partitionWidth, accepted⟩ := accepted
  replace accepted := getUint_bind_eq_some accepted
  obtain ⟨payloadLen, buf, rfl, -, accepted⟩ := accepted
  simp only at accepted
  split at accepted
  · cases accepted
  replace accepted := splitTo_bind_eq_some accepted
  obtain ⟨payload, trailing, rfl, payloadWidth, accepted⟩ := accepted
  cases accepted
  refine ⟨⟨Decidable.not_not.mp isMagic, fun empty => ?_, ?_⟩, trailing, ?_⟩
  · refine Decidable.byContradiction fun other => named ⟨?_, other⟩
    rw [← topicWidth, ← bytes, empty]
    rfl
  · rw [bytes, topicWidth]
    exact Nat.le_of_not_lt short
  · have magicFits : magic < 2 ^ 8 := magicWidth
    have correlationFits : correlationId < 2 ^ 32 := correlationWidth
    have partitionFits : partition < 2 ^ 32 := partitionWidth
    simp only [body, bytes, topicWidth, payloadWidth, ApiKey.code_of_tryFrom known,
      UInt8.toNat_ofNat', UInt32.toNat_ofNat', Nat.mod_eq_of_lt magicFits,
      Nat.mod_eq_of_lt correlationFits, Nat.mod_eq_of_lt partitionFits, List.append_assoc]

end Frame

/-- `request.rs::ProduceRequest`. -/
structure ProduceRequest where
  correlationId : UInt32
  topic : String
  partition : UInt32
  payload : Bytes
  deriving DecidableEq

/-- `request.rs::ProduceBatchRequest`. -/
structure ProduceBatchRequest where
  correlationId : UInt32
  topic : String
  partition : UInt32
  payloads : List Bytes
  deriving DecidableEq

/-- `request.rs::FetchRequest`. -/
structure FetchRequest where
  correlationId : UInt32
  topic : String
  partition : UInt32
  offset : UInt64
  maxBytes : UInt32
  deriving DecidableEq

/-- `request.rs::Request`. -/
inductive Request where
  | produce (request : ProduceRequest)
  | produceBatch (request : ProduceBatchRequest)
  | fetch (request : FetchRequest)
  deriving DecidableEq

namespace Request

/-- The loop over the payloads of a batch frame. -/
def readPayloads : Nat → Bytes → Option (Except RukaError (List Bytes × Bytes))
  | 0, payload => some (.ok ([], payload))
  | count + 1, payload =>
    if payload.length < 4 then some (.error (.frameTooShort 4 payload.length))
    else do
      let (msgLen, payload) ← getUint 4 payload
      if payload.length < msgLen then pure (.error (.frameTooShort msgLen payload.length))
      else do
        let (message, payload) ← splitTo msgLen payload
        match ← readPayloads count payload with
        | .error error => pure (.error error)
        | .ok (payloads, payload) => pure (.ok (message :: payloads, payload))

/-- `Request::from_frame`. -/
def fromFrame (frame : Frame) : Option (Except RukaError Request) :=
  match frame.apiKey with
  | .error => some (.error (.invalidFrame "Client cannot send Error frames"))
  | .produce =>
    some (.ok (.produce ⟨frame.correlationId, frame.topic, frame.partition, frame.payload⟩))
  | .produceBatch =>
    if frame.payload.length < 4 then some (.error (.frameTooShort 4 frame.payload.length))
    else do
      let (batchLen, payload) ← getUint 4 frame.payload
      match ← readPayloads batchLen payload with
      | .error error => pure (.error error)
      | .ok (payloads, payload) =>
        if payload ≠ [] then pure (.error (.invalidFrame "trailing bytes in batch payload"))
        else pure (.ok (.produceBatch ⟨frame.correlationId, frame.topic,
          frame.partition, payloads⟩))
  | .fetch =>
    if frame.payload.length ≠ 12 then some (.error (.frameTooShort 12 frame.payload.length))
    else do
      let (offset, payload) ← getUint 8 frame.payload
      let (maxBytes, _) ← getUint 4 payload
      pure (.ok (.fetch ⟨frame.correlationId, frame.topic, frame.partition, UInt64.ofNat offset,
        UInt32.ofNat maxBytes⟩))

/-- `into_frame` of the three requests. -/
def intoFrame : Request → Frame
  | .produce request =>
    ⟨magicByte, .produce, request.correlationId, request.topic, request.partition, request.payload⟩
  | .produceBatch request =>
    ⟨magicByte, .produceBatch, request.correlationId, request.topic, request.partition,
      beBytes 4 request.payloads.length ++
        request.payloads.flatMap fun payload => beBytes 4 payload.length ++ payload⟩
  | .fetch request =>
    ⟨magicByte, .fetch, request.correlationId, request.topic, request.partition,
      beBytes 8 request.offset.toNat ++ beBytes 4 request.maxBytes.toNat⟩

def correlationId : Request → UInt32
  | .produce request => request.correlationId
  | .produceBatch request => request.correlationId
  | .fetch request => request.correlationId

/-- The topic and partition a request is about. -/
def key : Request → String × UInt32
  | .produce request => (request.topic, request.partition)
  | .produceBatch request => (request.topic, request.partition)
  | .fetch request => (request.topic, request.partition)

/-- The payloads a request hands in. -/
def payloads : Request → List Bytes
  | .produce request => [request.payload]
  | .produceBatch request => request.payloads
  | .fetch _ => []

end Request

/-- `response.rs::ProduceResponse`. -/
structure ProduceResponse where
  correlationId : UInt32
  topic : String
  partition : UInt32
  offset : Nat
  deriving DecidableEq

/-- `response.rs::ProduceBatchResponse`. -/
structure ProduceBatchResponse where
  correlationId : UInt32
  topic : String
  partition : UInt32
  baseOffset : Nat
  deriving DecidableEq

/-- `response.rs::FetchResponse`. -/
structure FetchResponse where
  correlationId : UInt32
  topic : String
  partition : UInt32
  payload : Bytes
  deriving DecidableEq

/-- `response.rs::ErrorResponse`. -/
structure ErrorResponse where
  correlationId : UInt32
  errorCode : ErrorCode
  errorMessage : String
  deriving DecidableEq

/-- `response.rs::Response`. -/
inductive Response where
  | produce (response : ProduceResponse)
  | produceBatch (response : ProduceBatchResponse)
  | fetch (response : FetchResponse)
  | error (response : ErrorResponse)
  deriving DecidableEq

namespace Response

/-- `Response::into_frame`. -/
def intoFrame : Response → Frame
  | .produce response =>
    ⟨magicByte, .produce, response.correlationId, response.topic, response.partition,
      beBytes 8 response.offset⟩
  | .produceBatch response =>
    ⟨magicByte, .produceBatch, response.correlationId, response.topic, response.partition,
      beBytes 8 response.baseOffset⟩
  | .fetch response =>
    ⟨magicByte, .fetch, response.correlationId, response.topic, response.partition,
      response.payload⟩
  | .error response =>
    ⟨magicByte, .error, response.correlationId, "", 0,
      beBytes 2 response.errorCode.code ++ utf8 response.errorMessage⟩

def correlationId : Response → UInt32
  | .produce response => response.correlationId
  | .produceBatch response => response.correlationId
  | .fetch response => response.correlationId
  | .error response => response.correlationId

/-- `ErrorResponse::from_error` with the code that belongs to the error. -/
def ofError (correlationId : UInt32) (error : RukaError) : Response :=
  .error ⟨correlationId, ErrorCode.ofError error, error.text⟩

end Response

end Ruka.Protocol
