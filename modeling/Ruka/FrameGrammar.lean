import Ruka.WireFrames

/-! What the frame decoder accepts. It checks each length inside a frame with an
inequality: bytes behind the payload pass unseen, and a topic too long for its
length field can be read back as another frame. -/
namespace Ruka.Protocol
open BigEndian

private theorem ApiKey.tryFrom_code (key : ApiKey) : tryFrom key.code = .ok key := by
  cases key <;> rfl

private theorem ApiKey.code_lt (key : ApiKey) : key.code < 256 ^ 2 := by
  cases key <;> decide

private theorem fromUtf8_utf8 (text : String) : fromUtf8 (utf8 text) = some text := by
  unfold fromUtf8 utf8 String.fromUTF8?
  rw [dif_pos text.isValidUTF8]
  rfl

namespace Frame
variable {frame : Frame} {src rest : Bytes}

/-- The length a buffer starts with. -/
def totalLen (src : Bytes) : Nat := beNat (src.take 4)

/-- The decoder by the length it peeks at. -/
theorem decode_eq (src : Bytes) :
    decode src =
      if src.length < 4 then some (.ok none, src)
      else if totalLen src > maxFrameSize then
        some (.error (.frameTooLarge maxFrameSize (totalLen src)), src)
      else if totalLen src < minHeaderSize then
        some (.error (.frameTooShort minHeaderSize (totalLen src)), src)
      else if src.length < 4 + totalLen src then some (.ok none, src)
      else (decodeBody ((src.drop 4).take (totalLen src))).map fun answer =>
        (answer.map some, src.drop (4 + totalLen src)) := by
  unfold decode
  by_cases short : src.length < 4
  · rw [if_pos short, if_pos short]
  have enough : 4 ≤ src.length := by omega
  rw [if_neg short, if_neg short, getUint_of_le enough]
  simp only [Option.bind_eq_bind, Option.bind_some]
  change (if totalLen src > maxFrameSize then _ else if totalLen src < minHeaderSize then _
    else if src.length < 4 + totalLen src then _ else _) = _
  refine if_congr Iff.rfl rfl (if_congr Iff.rfl rfl
    (if_ctx_congr Iff.rfl (fun _ => rfl) fun complete => ?_))
  have behind : totalLen src ≤ (src.drop 4).length := by
    rw [List.length_drop]
    omega
  change (splitTo 4 src).bind (fun found => (splitTo (totalLen src) found.2).bind fun found =>
    (decodeBody found.1).bind fun answer => some (answer.map some, found.2)) = _
  rw [splitTo_of_le enough, Option.bind_some, splitTo_of_le behind, Option.bind_some,
    List.drop_drop, Option.map_eq_bind]
  rfl

/-- The checks behind the correlation id, where no read can fail. -/
def decodeNamed (apiKey : ApiKey) (correlationId : UInt32) (topicLen : Nat) (buf : Bytes) :
    Except RukaError Frame :=
  if topicLen = 0 ∧ apiKey ≠ .error then .error .invalidTopicName
  else if topicLen > 255 then .error .invalidTopicName
  else if buf.length < topicLen + 4 + 4 then .error (.frameTooShort (topicLen + 4 + 4) buf.length)
  else match fromUtf8 (buf.take topicLen) with
    | none => .error .invalidTopicName
    | some topic =>
      let partition := beNat ((buf.drop topicLen).take 4)
      let payloadLen := beNat ((buf.drop (topicLen + 4)).take 4)
      let remaining := buf.drop (topicLen + 4 + 4)
      if remaining.length < payloadLen then .error (.frameTooShort payloadLen remaining.length)
      else .ok ⟨magicByte, apiKey, correlationId, topic, UInt32.ofNat partition,
        remaining.take payloadLen⟩

/-- The lengths checked before them make the last reads succeed. -/
private theorem decodeNamed_eq (apiKey : ApiKey) (correlationId topicLen : Nat) (buf : Bytes) :
    (if topicLen = 0 ∧ apiKey ≠ .error then some (.error .invalidTopicName)
      else if topicLen > 255 then some (.error .invalidTopicName)
      else if buf.length < topicLen + 4 +
        4 then some (.error (.frameTooShort (topicLen + 4 + 4) buf.length))
      else (splitTo topicLen buf).bind fun (topicBytes, buf) =>
        match fromUtf8 topicBytes with
        | none => some (.error .invalidTopicName)
        | some topic =>
          (getUint 4 buf).bind fun (partition, buf) => (getUint 4 buf).bind fun (payloadLen, buf) =>
          if buf.length < payloadLen then some (.error (.frameTooShort payloadLen buf.length))
          else (splitTo payloadLen buf).bind fun (payload, _) =>
            some (.ok ⟨magicByte, apiKey, UInt32.ofNat correlationId, topic,
              UInt32.ofNat partition, payload⟩)) =
      some (decodeNamed apiKey (UInt32.ofNat correlationId) topicLen buf) := by
  unfold decodeNamed
  split
  · rfl
  split
  · rfl
  split
  · rfl
  rename_i enough
  have topicFits : topicLen ≤ buf.length := by omega
  have partitionFits : 4 ≤ (buf.drop topicLen).length := by
    rw [List.length_drop]
    omega
  have lengthFits : 4 ≤ (buf.drop (topicLen + 4)).length := by
    rw [List.length_drop]
    omega
  rw [splitTo_bind_of_le topicFits]
  dsimp only
  cases fromUtf8 (buf.take topicLen) with
  | none => rfl
  | some topic =>
    dsimp only
    rw [getUint_bind_of_le partitionFits, List.drop_drop, getUint_bind_of_le lengthFits,
      List.drop_drop]
    dsimp only
    split
    · rfl
    rename_i payloadFits
    rw [splitTo_bind_of_le (Nat.not_lt.mp payloadFits)]

/-- The decoder behind the length, as a function of the bytes at fixed places. -/
def decodeFields (buf : Bytes) : Except RukaError Frame :=
  let magic := UInt8.ofNat (beNat (buf.take 1))
  if magic ≠ magicByte then .error (.invalidMagicByte magic)
  else match ApiKey.tryFrom (beNat ((buf.drop 1).take 2)) with
    | .error error => .error error
    | .ok apiKey =>
      decodeNamed apiKey (UInt32.ofNat (beNat ((buf.drop 3).take 4)))
        (beNat ((buf.drop 7).take 2)) (buf.drop 9)

/-- No read of a header runs past a frame of at least the minimal length. -/
theorem decodeBody_eq (long : minHeaderSize ≤ buf.length) :
    decodeBody buf = some (decodeFields buf) := by
  have header : 17 ≤ buf.length := long
  have first : 1 ≤ buf.length := by omega
  have second : 2 ≤ (buf.drop 1).length := by
    rw [List.length_drop]
    omega
  have third : 4 ≤ (buf.drop 3).length := by
    rw [List.length_drop]
    omega
  have fourth : 2 ≤ (buf.drop 7).length := by
    rw [List.length_drop]
    omega
  unfold decodeFields
  refine (getUint_bind_of_le first).trans ?_
  dsimp only
  by_cases isMagic : UInt8.ofNat (beNat (buf.take 1)) = magicByte
  case neg =>
    rw [if_pos isMagic, if_pos isMagic]
    rfl
  rw [if_neg (not_not_intro isMagic), if_neg (not_not_intro isMagic)]
  refine (getUint_bind_of_le second).trans ?_
  dsimp only
  cases ApiKey.tryFrom (beNat ((buf.drop 1).take 2)) with
  | error error => rfl
  | ok apiKey =>
    rw [List.drop_drop, isMagic]
    refine (getUint_bind_of_le third).trans ?_
    rw [List.drop_drop]
    refine (getUint_bind_of_le fourth).trans ?_
    rw [List.drop_drop]
    exact decodeNamed_eq apiKey _ _ _

private theorem decodeNamed_ok_iff (apiKey : ApiKey) (correlationId : UInt32) (topicLen : Nat)
    (buf : Bytes) : (∃ frame, decodeNamed apiKey correlationId topicLen buf = .ok frame) ↔
      (topicLen = 0 → apiKey = .error) ∧ topicLen ≤ 255 ∧ topicLen + 4 + 4 ≤ buf.length ∧
        (fromUtf8 (buf.take topicLen)).isSome ∧
        beNat ((buf.drop (topicLen + 4)).take 4) ≤ (buf.drop (topicLen + 4 + 4)).length := by
  unfold decodeNamed
  split
  · rename_i unnamed
    simp [unnamed]
  rename_i named
  have named : topicLen = 0 → apiKey = .error := fun zero => Decidable.byContradiction fun other =>
    named ⟨zero, other⟩
  split
  · simp
    omega
  split
  · simp
    omega
  cases fromUtf8 (buf.take topicLen) with
  | none => simp
  | some topic =>
    dsimp only
    split
    · rename_i beyond
      simp only [reduceCtorEq, exists_false, false_iff]
      rintro ⟨-, -, -, -, fits⟩
      omega
    · rename_i fits
      simp only [Except.ok.injEq, exists_eq', true_iff]
      exact ⟨named, by omega, by omega, rfl, Nat.not_lt.mp fits⟩

/-- Behind the header the decoder sees the topic's length modulo its field. -/
theorem decodeFields_header (apiKey : ApiKey) (correlationId : UInt32) (topicLen : Nat)
    (tail : Bytes) :
    decodeFields (beBytes 1 magicByte.toNat ++
      (beBytes 2 apiKey.code ++ (beBytes 4 correlationId.toNat ++ (beBytes 2 topicLen ++ tail)))) =
        decodeNamed apiKey correlationId (topicLen % 2 ^ 16) tail := by
  have code : apiKey.code % 256 ^ 2 = apiKey.code := Nat.mod_eq_of_lt apiKey.code_lt
  have id : correlationId.toNat % 256 ^ 4 = correlationId.toNat :=
    Nat.mod_eq_of_lt correlationId.toNat_lt
  have second (rest : Bytes) : (beBytes 1 magicByte.toNat ++ rest).drop 1 = rest :=
    drop_beBytes_append 1 0 _ _
  have third (rest : Bytes) :
      (beBytes 1 magicByte.toNat ++ (beBytes 2 apiKey.code ++ rest)).drop 3 = rest := by
    rw [drop_beBytes_append 1 2]
    exact drop_beBytes_append 2 0 _ _
  have fourth (rest : Bytes) : (beBytes 1 magicByte.toNat ++ (beBytes 2 apiKey.code ++
      (beBytes 4 correlationId.toNat ++ rest))).drop 7 = rest := by
    rw [drop_beBytes_append 1 6, drop_beBytes_append 2 4]
    exact drop_beBytes_append 4 0 _ _
  have behind : (beBytes 1 magicByte.toNat ++
      (beBytes 2 apiKey.code ++ (beBytes 4 correlationId.toNat ++
        (beBytes 2 topicLen ++ tail)))).drop 9 = tail := by
    rw [drop_beBytes_append 1 8, drop_beBytes_append 2 6, drop_beBytes_append 4 2]
    exact drop_beBytes_append 2 0 _ _
  have isMagic : UInt8.ofNat (magicByte.toNat % 256 ^ 1) = magicByte := by decide
  simp only [decodeFields, take_beBytes_append, second, third, fourth, behind, isMagic,
    beNat_beBytes, code, id, ApiKey.tryFrom_code, UInt32.ofNat_toNat, ne_eq,
    not_true_eq_false, ↓reduceIte]
  rfl

/-- What follows the header of a frame. -/
private theorem body_eq (frame : Frame) :
    frame.body = beBytes 1 frame.magic.toNat ++ (beBytes 2 frame.apiKey.code ++
      (beBytes 4 frame.correlationId.toNat ++
        (beBytes 2 (utf8 frame.topic).length ++
          (utf8 frame.topic ++ (beBytes 4 frame.partition.toNat ++
            (beBytes 4 frame.payload.length ++ frame.payload)))))) := by
  simp only [body, List.append_assoc]

private theorem decodeFields_of_magic (isMagic : frame.magic = magicByte) (trailing : Bytes) :
    decodeFields (frame.body ++ trailing) =
      decodeNamed frame.apiKey frame.correlationId ((utf8 frame.topic).length % 2 ^ 16)
        (utf8 frame.topic ++ (beBytes 4 frame.partition.toNat ++
          (beBytes 4 frame.payload.length ++ (frame.payload ++ trailing)))) := by
  rw [body_eq, isMagic]
  simp only [List.append_assoc, decodeFields_header]

/-- A well formed frame is read back, whatever is behind it in its buffer. -/
theorem decodeFields_body (wellFormed : frame.WellFormed) (fits : frame.payload.length < 2 ^ 32)
    (trailing : Bytes) : decodeFields (frame.body ++ trailing) = .ok frame := by
  obtain ⟨isMagic, named, short⟩ := wellFormed
  have width : (utf8 frame.topic).length % 2 ^ 16 = (utf8 frame.topic).length :=
    Nat.mod_eq_of_lt (by omega)
  have payloadWidth : beNat (beBytes 4 frame.payload.length) = frame.payload.length :=
    beNat_beBytes_of_lt fits
  have partitionWidth : beNat (beBytes 4 frame.partition.toNat) = frame.partition.toNat :=
    beNat_beBytes_of_lt frame.partition.toNat_lt
  have skip (count : Nat) (rest : Bytes) :
      (utf8 frame.topic ++ rest).drop ((utf8 frame.topic).length + count) = rest.drop count := by
    rw [← List.drop_drop, List.drop_left]
  have skipPartition (rest : Bytes) : (beBytes 4 frame.partition.toNat ++ rest).drop 4 = rest :=
    drop_beBytes_append 4 0 _ _
  have skipBoth (rest : Bytes) :
      (beBytes 4 frame.partition.toNat ++
        (beBytes 4 frame.payload.length ++ rest)).drop 8 = rest := by
    rw [drop_beBytes_append 4 4]
    exact drop_beBytes_append 4 0 _ _
  have unnamed : ¬ ((utf8 frame.topic).length = 0 ∧ frame.apiKey ≠ .error) := by
    rintro ⟨empty, other⟩
    exact other (named (List.length_eq_zero_iff.mp empty))
  rw [decodeFields_of_magic isMagic, width, decodeNamed, if_neg unnamed, if_neg (by omega),
    if_neg (by simp; omega), List.take_left, fromUtf8_utf8]
  simp only [Nat.add_assoc, Nat.reduceAdd, skip, List.drop_left, take_beBytes_append, skipPartition,
    skipBoth, payloadWidth, partitionWidth, List.length_append, List.take_left,
    UInt32.ofNat_toNat, ← isMagic]
  rw [if_neg (by omega)]

/-- Frames shorter than the field of their length, encoded and read back. -/
theorem decode_encode (fits : frame.bodyLen < 2 ^ 32) (rest : Bytes) :
    decode (frame.encode ++ rest) =
      if frame.bodyLen > maxFrameSize
      then some (.error (.frameTooLarge maxFrameSize frame.bodyLen), frame.encode ++ rest)
      else some ((decodeFields frame.body).map some, rest) := by
  have width : totalLen (frame.encode ++ rest) = frame.bodyLen := by
    rw [totalLen, encode, List.append_assoc, take_beBytes_append]
    exact beNat_beBytes_of_lt fits
  have minimal : ¬ frame.bodyLen < minHeaderSize := by
    simp only [bodyLen, minHeaderSize]
    omega
  have body : ((frame.encode ++ rest).drop 4).take frame.bodyLen = frame.body := by
    rw [encode, List.append_assoc, List.drop_left' (length_beBytes 4 _)]
    exact List.take_left' (length_body frame)
  have behind : (frame.encode ++ rest).drop (4 + frame.bodyLen) = rest :=
    List.drop_left' (length_encode frame)
  have arrived : ¬ (frame.encode ++ rest).length < 4 + frame.bodyLen := by simp
  have prefixed : ¬ (frame.encode ++ rest).length < 4 := by omega
  rw [decode_eq, width, if_neg prefixed, if_neg minimal, if_neg arrived, body, behind,
    decodeBody_eq (by simpa using minimal)]
  rfl

/-- A well formed frame within the limit is what its encoding decodes to. -/
theorem decode_encode_of_wellFormed (wellFormed : frame.WellFormed)
    (limit : frame.bodyLen ≤ maxFrameSize) (rest : Bytes) :
    decode (frame.encode ++ rest) = some (.ok (some frame), rest) := by
  have size : frame.bodyLen ≤ 2 ^ 24 := limit
  have payload : frame.payload.length ≤ frame.bodyLen := by
    unfold bodyLen
    omega
  have read := decodeFields_body wellFormed (by omega) []
  rw [List.append_nil] at read
  rw [decode_encode (by omega), if_neg (Nat.not_lt.mpr limit), read]
  rfl

/-- What an accepted buffer consists of. -/
theorem decode_accepted (accepted : decode src = some (.ok (some frame), rest)) :
    frame.WellFormed ∧ ∃ trailing, totalLen src = frame.bodyLen + trailing.length ∧
    totalLen src ≤ maxFrameSize ∧
      src = beBytes 4 (totalLen src) ++ frame.body ++ trailing ++ rest := by
  rw [decode_eq] at accepted
  split at accepted
  · cases accepted
  rename_i prefixed
  split at accepted
  · cases accepted
  rename_i limit
  split at accepted
  · cases accepted
  split at accepted
  · cases accepted
  rename_i arrived
  obtain ⟨answer, decoded, shape⟩ := Option.map_eq_some_iff.mp accepted
  cases answer with
  | error error => cases shape
  | ok found =>
    cases shape
    obtain ⟨wellFormed, trailing, bytes⟩ := decodeBody_ok decoded
    have length := congrArg List.length bytes
    have first := beBytes_beNat (src.take 4)
    rw [List.length_take, Nat.min_eq_left (by omega)] at first
    rw [List.length_take, List.length_drop, Nat.min_eq_left (by omega), List.length_append,
      length_body] at length
    refine ⟨wellFormed, trailing, length, Nat.not_lt.mp limit, ?_⟩
    rw [List.append_assoc _ frame.body, ← bytes, totalLen, first, List.append_assoc,
      ← List.drop_drop, List.take_append_drop, List.take_append_drop]

/-- The topic length field of a buffer that starts with a frame. -/
def topicLenField (src : Bytes) : Nat := beNat ((src.drop 11).take 2)

/-- The payload length field, behind the topic and the partition. -/
def payloadLenField (src : Bytes) : Nat := beNat ((src.drop (17 + topicLenField src)).take 4)

/-- The three lengths of a frame leave no byte of it over. -/
def LengthsAgree (src : Bytes) : Prop := totalLen src = 17 + topicLenField src + payloadLenField src

private theorem drop_header (frame : Frame) (total more : Nat) (behind : Bytes) :
    (beBytes 4 total ++ (frame.body ++ behind)).drop (11 + more) =
      (beBytes 2 (utf8 frame.topic).length ++
        (utf8 frame.topic ++ (beBytes 4 frame.partition.toNat ++
          (beBytes 4 frame.payload.length ++ (frame.payload ++ behind))))).drop more := by
  have fields : 11 + more = 4 + (1 + (2 + (4 + more))) := by omega
  rw [body_eq, fields]
  simp only [List.append_assoc, drop_beBytes_append]

/-- The bytes behind the payload decide whether the lengths agree. -/
private theorem lengthsAgree_iff (wellFormed : frame.WellFormed)
    (limit : totalLen src ≤ maxFrameSize) (length : totalLen src = frame.bodyLen + trailing.length)
    (shape : src = beBytes 4 (totalLen src) ++ frame.body ++ trailing ++ rest) :
    LengthsAgree src ↔ trailing = [] := by
  have short := wellFormed.topic
  have size : frame.payload.length < 256 ^ 4 := by
    simp only [maxFrameSize, bodyLen] at limit length
    omega
  simp only [List.append_assoc] at shape
  have topicLen : topicLenField src = (utf8 frame.topic).length := by
    rw [topicLenField, shape, drop_header frame _ 0, List.drop_zero, take_beBytes_append]
    exact beNat_beBytes_of_lt (by omega)
  have payloadLen : payloadLenField src = frame.payload.length := by
    have fields : 17 + (utf8 frame.topic).length =
        11 + (2 + ((utf8 frame.topic).length + (4 + 0))) := by omega
    rw [payloadLenField, topicLen, shape, fields, drop_header, drop_beBytes_append,
      ← List.drop_drop, List.drop_left, drop_beBytes_append, List.drop_zero, take_beBytes_append]
    exact beNat_beBytes_of_lt size
  rw [LengthsAgree, topicLen, payloadLen, length, bodyLen, ← List.length_eq_zero_iff]
  omega

/-- An accepted buffer starts with the encoding of its frame exactly when the
lengths in it agree; everything else the decoder checks. -/
theorem accepted_is_encoding_iff (src : Bytes) (frame : Frame) (rest : Bytes)
    (accepted : decode src = some (.ok (some frame), rest)) :
    (frame.WellFormed ∧ frame.bodyLen ≤ maxFrameSize ∧ src = frame.encode ++ rest) ↔
      LengthsAgree src := by
  obtain ⟨wellFormed, trailing, length, limit, shape⟩ := decode_accepted accepted
  rw [lengthsAgree_iff wellFormed limit length shape]
  constructor
  · rintro ⟨-, -, whole⟩
    have same := congrArg List.length (shape.symm.trans whole)
    simp only [List.length_append, length_beBytes, length_body, length_encode] at same
    exact List.eq_nil_of_length_eq_zero (by omega)
  · rintro rfl
    rw [List.length_nil, Nat.add_zero] at length
    refine ⟨wellFormed, length ▸ limit, ?_⟩
    rw [shape, length, encode, List.append_nil]

/-- A produce frame with one byte behind its payload, accepted all the same. -/
theorem trailing_byte_accepted :
    let frame : Frame := ⟨magicByte, .produce, 1, "t", 0, [7]⟩
    let src := beBytes 4 (frame.bodyLen + 1) ++ frame.body ++ [0]
    decode src = some (.ok (some frame), []) ∧ src ≠ frame.encode := by
  decide +kernel

theorem accepted_is_encoding_iff_plain :
    let frame : Frame := ⟨magicByte, .produce, 1, "t", 0, [7]⟩
    decode frame.encode = some (.ok (some frame), []) ∧
      ((frame.WellFormed ∧ frame.bodyLen ≤ maxFrameSize ∧ frame.encode = frame.encode ++ []) ↔
        LengthsAgree frame.encode) :=
  ⟨by decide +kernel, accepted_is_encoding_iff _ _ _ (by decide +kernel)⟩

/-- The decoder takes this frame's encoding for another frame: the length of the
topic wraps around to one the decoder accepts, and the topic's own bytes stand
where the length of the payload is read. -/
structure Misread (frame : Frame) : Prop where
  magic : frame.magic = magicByte
  size : frame.bodyLen ≤ maxFrameSize
  wraps : 2 ^ 16 ≤ (utf8 frame.topic).length
  short : (utf8 frame.topic).length % 2 ^ 16 ≤ 255
  named : (utf8 frame.topic).length % 2 ^ 16 = 0 → frame.apiKey = .error
  boundary : (fromUtf8 ((utf8 frame.topic).take ((utf8 frame.topic).length % 2 ^ 16))).isSome
  payload : beNat (((utf8 frame.topic).drop ((utf8 frame.topic).length % 2 ^ 16 + 4)).take 4) ≤
    frame.bodyLen - 17 - (utf8 frame.topic).length % 2 ^ 16

/-- A topic that wraps is read as another frame exactly when it is a misreading. -/
private theorem decodeFields_wrapped (isMagic : frame.magic = magicByte)
    (wraps : 2 ^ 16 ≤ (utf8 frame.topic).length) (size : frame.bodyLen ≤ maxFrameSize) :
    (∃ other, decodeFields frame.body = .ok other) ↔ frame.Misread := by
  have fields := decodeFields_of_magic isMagic []
  simp only [List.append_nil] at fields
  have inside : (utf8 frame.topic).length % 2 ^ 16 + 2 ^ 16 ≤ (utf8 frame.topic).length := by omega
  rw [fields, decodeNamed_ok_iff]
  generalize wrapped : (utf8 frame.topic).length % 2 ^ 16 = topicLen at inside ⊢
  have remaining :
      ((utf8 frame.topic ++ (beBytes 4 frame.partition.toNat ++
        (beBytes 4 frame.payload.length ++ frame.payload))).drop (topicLen + 4 + 4)).length =
          frame.bodyLen - 17 - topicLen := by
    simp only [List.length_drop, List.length_append, length_beBytes, bodyLen]
    omega
  rw [remaining, List.take_append_of_le_length (by omega), List.drop_append_of_le_length (by omega),
    List.take_append_of_le_length (by rw [List.length_drop]; omega)]
  constructor
  · rintro ⟨named, short, -, boundary, payload⟩
    exact ⟨isMagic, size, wraps, wrapped.symm ▸ short, wrapped.symm ▸ named,
      wrapped.symm ▸ boundary, wrapped.symm ▸ payload⟩
  · rintro ⟨-, -, -, short, named, boundary, payload⟩
    rw [wrapped] at short named boundary payload
    refine ⟨named, short, ?_, boundary, payload⟩
    rw [List.length_append]
    omega

/-- A topic within its length field is read back or rejected. -/
private theorem decodeFields_unwrapped (isMagic : frame.magic = magicByte)
    (unwrapped : (utf8 frame.topic).length < 2 ^ 16) (fits : frame.payload.length < 2 ^ 32)
    (accepted : decodeFields frame.body = .ok other) : other = frame := by
  have fields := decodeFields_of_magic isMagic []
  rw [Nat.mod_eq_of_lt unwrapped] at fields
  simp only [List.append_nil] at fields
  obtain ⟨named, short, -⟩ := (decodeNamed_ok_iff _ _ _ _).mp ⟨other, fields.symm.trans accepted⟩
  have wellFormed : frame.WellFormed := ⟨isMagic, fun empty => named (by rw [empty]; rfl), short⟩
  have same := decodeFields_body wellFormed fits []
  rw [List.append_nil, accepted] at same
  exact Except.ok.inj same

private theorem decodeFields_of_not_magic (notMagic : frame.magic ≠ magicByte) :
    decodeFields frame.body = .error (.invalidMagicByte frame.magic) := by
  have read : UInt8.ofNat (beNat (frame.body.take 1)) = frame.magic := by
    rw [body_eq, take_beBytes_append, beNat_beBytes_of_lt frame.magic.toNat_lt, UInt8.ofNat_toNat]
  rw [decodeFields, read, if_pos notMagic]

/-- Encoded frames are read back as themselves or rejected, except those that
are misread. -/
theorem decode_encode_same_or_error_iff (frame : Frame) (fits : frame.bodyLen < 2 ^ 32) :
    (∃ answer rest, decode frame.encode = some (answer, rest) ∧
        (answer = .ok (some frame) ∨ ∃ error, answer = .error error)) ↔ ¬ frame.Misread := by
  have payload : frame.payload.length ≤ frame.bodyLen := by
    unfold bodyLen
    omega
  have decoded := decode_encode fits []
  rw [List.append_nil] at decoded
  rw [decoded]
  split
  · rename_i beyond
    have rejected : ¬ frame.Misread := fun misread => absurd misread.size (Nat.not_le.mpr beyond)
    exact iff_of_true ⟨_, _, rfl, .inr ⟨_, rfl⟩⟩ rejected
  rename_i limit
  by_cases isMagic : frame.magic = magicByte
  case neg =>
    rw [decodeFields_of_not_magic isMagic]
    exact iff_of_true ⟨_, _, rfl, .inr ⟨_, rfl⟩⟩ fun misread => isMagic misread.magic
  by_cases unwrapped : (utf8 frame.topic).length < 2 ^ 16
  · refine iff_of_true ⟨_, _, rfl, ?_⟩ fun misread =>
      absurd misread.wraps (Nat.not_le.mpr unwrapped)
    cases accepted : decodeFields frame.body with
    | error error => exact .inr ⟨error, rfl⟩
    | ok other =>
      rw [decodeFields_unwrapped isMagic unwrapped (by omega) accepted]
      exact .inl rfl
  rw [← decodeFields_wrapped isMagic (Nat.not_lt.mp unwrapped) (Nat.not_lt.mp limit)]
  cases accepted : decodeFields frame.body with
  | error error => exact iff_of_true ⟨_, _, rfl, .inr ⟨error, rfl⟩⟩ (by simp)
  | ok other =>
    -- An accepted topic has at most 255 bytes, so it is not the one that was sent.
    have minimal : minHeaderSize ≤ frame.body.length := by
      rw [length_body, minHeaderSize, bodyLen]
      omega
    have topic := (decodeBody_ok ((decodeBody_eq minimal).trans (congrArg some accepted))).1.topic
    have different : other ≠ frame := by
      rintro rfl
      omega
    refine iff_of_false ?_ (by simp)
    rintro ⟨answer, rest, shape, same | ⟨error, same⟩⟩
    · subst same
      simp only [Except.map, Option.some.injEq, Prod.mk.injEq, Except.ok.injEq] at shape
      exact different shape.1
    · subst same
      simp [Except.map] at shape

private theorem utf8_zeros (count : Nat) :
    utf8 (String.ofList (List.replicate count '\x00')) = List.replicate count 0 := by
  have one : String.utf8EncodeChar '\x00' = [0] := by decide
  have bytes : (List.replicate count '\x00').flatMap String.utf8EncodeChar =
      List.replicate count 0 := by
    rw [List.flatMap_replicate, one, List.flatten_replicate_singleton]
  simpa [utf8, List.utf8Encode] using bytes

private theorem zeros_named (correlationId : UInt32) (behind : Bytes) :
    decodeNamed .produce correlationId (65537 % 2 ^ 16) ([0, 0, 0, 0, 0, 0, 0, 0, 0] ++ behind) =
      .ok ⟨magicByte, .produce, correlationId, "\x00", 0, []⟩ := by
  have name : fromUtf8 [0] = some "\x00" := by decide +kernel
  simp [decodeNamed, name, beNat]

/-- A topic of 65537 zero bytes comes back as the topic of one zero byte, on a
frame without payload. -/
theorem long_topic_misread :
    let frame : Frame :=
      ⟨magicByte, .produce, 1, String.ofList (List.replicate 65537 '\x00'), 7, [1]⟩
    frame.bodyLen < 2 ^ 32 ∧
      decode frame.encode = some (.ok (some ⟨magicByte, .produce, 1, "\x00", 0, []⟩), []) ∧
      frame ≠ ⟨magicByte, .produce, 1, "\x00", 0, []⟩ := by
  intro frame
  have topic : utf8 frame.topic = List.replicate 65537 0 := utf8_zeros 65537
  have zeros : List.replicate 65537 (0 : UInt8) = [0, 0, 0, 0, 0, 0, 0, 0, 0] ++
      List.replicate 65528 0 :=
    List.replicate_add 9 65528 0
  have length : frame.bodyLen = 65555 := by
    rw [bodyLen, topic, List.length_replicate]
    rfl
  have isMagic : frame.magic = magicByte := rfl
  have fits : frame.bodyLen < 2 ^ 32 := by
    rw [length]
    decide
  have fields := decodeFields_of_magic isMagic []
  rw [topic, List.length_replicate, List.append_nil, zeros, List.append_assoc,
    zeros_named] at fields
  have decoded := decode_encode fits []
  rw [length, if_neg (by decide), List.append_nil, fields] at decoded
  refine ⟨fits, decoded, fun same => ?_⟩
  have other := congrArg (fun found => (utf8 found.topic).length) same
  simp only [topic, List.length_replicate] at other
  revert other
  decide +kernel

theorem decode_encode_same_or_error_plain :
    (∃ answer rest,
      decode (⟨magicByte, .produce, 1, "t", 0, [7]⟩ : Frame).encode = some (answer, rest) ∧
        (answer = .ok (some ⟨magicByte, .produce, 1, "t", 0, [7]⟩) ∨
          ∃ error, answer = .error error)) ↔
      ¬ (⟨magicByte, .produce, 1, "t", 0, [7]⟩ : Frame).Misread :=
  decode_encode_same_or_error_iff _ (by decide +kernel)

end Frame

end Ruka.Protocol
