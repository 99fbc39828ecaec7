import Ruka.SegmentFiles

/-! What the record decoder accepts. It checks the length of the whole record
against the buffer and then trusts the lengths of the key and of the value, so
the bytes it takes are the record's only where the three lengths add up. -/
namespace Ruka
open BigEndian LexicalPaths FilePrograms

/-- The bytes a length field announces; `u32::MAX` announces none. -/
def announced (length : Nat) : Nat := if length = u32Max then 0 else length

private theorem announced_fieldLen (fits : fieldLen field < u32Max) (rest : Bytes) :
    announced (beNat ((encodeField field ++ rest).take 4)) = fieldLen field := by
  cases field with
  | none =>
    rw [encodeField, take_beBytes_append]
    decide
  | some bytes =>
    have length : bytes.length < u32Max := by simpa [fieldLen] using fits
    have narrow : bytes.length < 256 ^ 4 := by
      unfold u32Max at length
      omega
    rw [encodeField, List.append_assoc, take_beBytes_append, beNat_beBytes_of_lt narrow, announced,
      if_neg (by omega)]
    rfl

/-- A field is read if the buffer holds what it announces. -/
theorem decodeField_isSome (enough : 4 + announced (beNat (src.take 4)) ≤ src.length) :
    ∃ field, decodeField src = some (field, src.drop (4 + announced (beNat (src.take 4)))) := by
  have prefixed : 4 ≤ src.length := by omega
  unfold decodeField
  rw [getUint_of_le prefixed]
  simp only [Option.bind_eq_bind, Option.bind_some]
  unfold announced at enough ⊢
  by_cases absent : beNat (src.take 4) = u32Max
  · rw [if_pos absent, if_pos absent]
    exact ⟨none, rfl⟩
  · rw [if_neg absent] at enough
    rw [if_neg absent, if_neg absent]
    have held : beNat (src.take 4) ≤ (src.drop 4).length := by
      rw [List.length_drop]
      omega
    rw [splitTo_of_le held, Option.bind_some, List.drop_drop]
    exact ⟨some _, rfl⟩

/-- A field that was read is what its encoding was, and is short. -/
theorem decodeField_eq_some (read : decodeField src = some (field, rest)) :
    src = encodeField field ++ rest ∧ fieldLen field < u32Max := by
  obtain ⟨length, behind, rfl, narrow, later⟩ := getUint_bind_eq_some read
  dsimp only at later
  split at later
  · rename_i absent
    cases later
    exact ⟨by rw [absent]; rfl, by decide⟩
  · rename_i present
    obtain ⟨bytes, left, rfl, size, same⟩ := splitTo_bind_eq_some later
    cases same
    subst size
    refine ⟨by rw [encodeField, List.append_assoc], ?_⟩
    have short : bytes.length < 2 ^ 32 := narrow
    change bytes.length < u32Max
    unfold u32Max at present ⊢
    omega

namespace Record

/-- The `RecordLength` a buffer starts with. -/
def recordLenField (src : Bytes) : Nat := beNat (src.take 4)

/-- The key length, behind the record length, the offset and the timestamp. -/
def keyLenField (src : Bytes) : Nat := beNat ((src.drop 20).take 4)

/-- The value length, behind the key. -/
def valueLenField (src : Bytes) : Nat :=
  beNat ((src.drop (24 + announced (keyLenField src))).take 4)

/-- The lengths of key and value leave no byte of the record over and take none
behind it. -/
def LengthsAgree (src : Bytes) : Prop :=
  recordLenField src = 28 + announced (keyLenField src) + announced (valueLenField src)

instance (src : Bytes) : Decidable (LengthsAgree src) := inferInstanceAs (Decidable (_ = _))

/-- The whole record is in the buffer, by its length field. -/
structure Arrived (src : Bytes) : Prop where
  minimal : 28 ≤ recordLenField src
  present : recordLenField src ≤ src.length

/-- `decode` answers, and stays within the record: a record it gives is the
encoding the buffer started with, as long as its length field says, and without
a record nothing is consumed. -/
def Contained (src : Bytes) : Prop :=
  match decode src with
  | some (.ok (some record), rest) =>
    src = record.encode ++ rest ∧ src.length - rest.length = recordLenField src
  | some (_, rest) => rest = src
  | none => False

/-- The bytes of a record behind its length. -/
def tail (record : Record) : Bytes :=
  beBytes 8 record.offset ++ (beBytes 8 record.timestampMs ++
    (encodeField record.key ++ encodeField record.value))

private theorem encode_eq (record : Record) :
    record.encode = beBytes 4 (recordLen record.key record.value) ++ record.tail := by
  simp only [encode, tail, List.append_assoc]

variable {src rest : Bytes} {record : Record}

/-- Behind the checks only the inner lengths can go wrong. -/
theorem decode_of_arrived (arrived : Arrived src) :
    decode src = (decodeField (src.drop 20)).bind fun (key, src') =>
      (decodeField src').bind fun (value, src') =>
        some (.ok (some ⟨beNat ((src.drop 4).take 8), beNat ((src.drop 12).take 8), key,
          value⟩), src') := by
  obtain ⟨minimal, present⟩ := arrived
  have offsetFits : 8 ≤ (src.drop 4).length := by
    rw [List.length_drop]
    omega
  have stampFits : 8 ≤ (src.drop 12).length := by
    rw [List.length_drop]
    omega
  have four : 4 ≤ src.length := by omega
  unfold decode
  rw [if_neg (by omega)]
  apply (getUint_bind_of_le four).trans
  change (if recordLenField src < 28 then _ else if src.length <
    recordLenField src then _ else _) = _
  rw [if_neg (by omega), if_neg (by omega)]
  refine (splitTo_bind_of_le four).trans ((getUint_bind_of_le offsetFits).trans ?_)
  rw [List.drop_drop]
  apply (getUint_bind_of_le stampFits).trans
  rw [List.drop_drop]
  rfl

/-- Before the record has arrived, or below the minimal length, nothing is taken. -/
theorem contained_of_not_arrived
    (missing : src.length < 4 ∨ recordLenField src < 28 ∨ src.length < recordLenField src) :
    Contained src := by
  unfold Contained decode
  by_cases short : src.length < 4
  · rw [if_pos short]
  have peeked : getUint 4 src = some (recordLenField src, src.drop 4) :=
    getUint_of_le (Nat.not_lt.mp short)
  rw [if_neg short, peeked]
  simp only [Option.bind_eq_bind, Option.bind_some]
  by_cases small : recordLenField src < 28
  · rw [if_pos small]
    rfl
  · rw [if_neg small, if_pos ((missing.resolve_left short).resolve_left small)]
    rfl

/-- A record that was read, with the bytes it was read from. -/
theorem decode_accepted (arrived : Arrived src)
    (read : decode src = some (.ok (some record), rest)) :
    src = beBytes 4 (recordLenField src) ++ (record.tail ++ rest) ∧
      fieldLen record.key < u32Max ∧ fieldLen record.value < u32Max := by
  have four : 4 ≤ src.length :=
    Nat.le_trans (by decide) (Nat.le_trans arrived.minimal arrived.present)
  rw [decode_of_arrived arrived] at read
  obtain ⟨⟨key, behind⟩, readKey, later⟩ := Option.bind_eq_some_iff.mp read
  obtain ⟨⟨value, left⟩, readValue, same⟩ := Option.bind_eq_some_iff.mp later
  cases same
  obtain ⟨keyShape, keyShort⟩ := decodeField_eq_some readKey
  obtain ⟨valueShape, valueShort⟩ := decodeField_eq_some readValue
  refine ⟨?_, keyShort, valueShort⟩
  have word (start width : Nat) (inside : start + width ≤ src.length) :
      beBytes width (beNat ((src.drop start).take width)) ++ src.drop (start + width) =
        src.drop start := by
    have length : ((src.drop start).take width).length = width := by
      rw [List.length_take, List.length_drop]
      omega
    have bytes := beBytes_beNat ((src.drop start).take width)
    rw [length] at bytes
    rw [bytes, ← List.drop_drop, List.take_append_drop]
  have long : 28 ≤ src.length := Nat.le_trans arrived.minimal arrived.present
  have first := word 0 4 (by omega)
  have second := word 4 8 (by omega)
  have third := word 12 8 (by omega)
  simp only [tail, List.append_assoc]
  rw [← valueShape, ← keyShape, third, second]
  exact first.symm

/-- The inner length fields of a record that was read. -/
theorem announced_of_accepted (arrived : Arrived src)
    (read : decode src = some (.ok (some record), rest)) :
    announced (keyLenField src) = fieldLen record.key ∧
      announced (valueLenField src) = fieldLen record.value := by
  obtain ⟨shape, keyShort, valueShort⟩ := decode_accepted arrived read
  have skip (more : Nat) : src.drop (20 + more) =
      (encodeField record.key ++ (encodeField record.value ++ rest)).drop more := by
    have fields : 20 + more = 4 + (8 + (8 + more)) := by omega
    rw [shape, fields, tail]
    simp only [List.append_assoc, drop_beBytes_append]
  have key : announced (keyLenField src) = fieldLen record.key := by
    rw [keyLenField, skip 0]
    exact announced_fieldLen keyShort _
  have place : 24 + announced (keyLenField src) = 20 + (encodeField record.key).length := by
    rw [key, length_encodeField]
    omega
  refine ⟨key, ?_⟩
  rw [valueLenField, place, skip, List.drop_left]
  exact announced_fieldLen valueShort _

/-- Lengths that add up never lead past the buffer. -/
theorem decode_of_lengthsAgree (arrived : Arrived src) (agree : LengthsAgree src) :
    ∃ record rest, decode src = some (.ok (some record), rest) := by
  have present := arrived.present
  rw [agree] at present
  have inKey : 4 + announced (beNat ((src.drop 20).take 4)) ≤ (src.drop 20).length := by
    rw [List.length_drop]
    change 4 + announced (keyLenField src) ≤ _
    omega
  obtain ⟨key, readKey⟩ := decodeField_isSome inKey
  have behind : (src.drop 20).drop (4 + announced (beNat ((src.drop 20).take 4))) =
      src.drop (24 + announced (keyLenField src)) := by
    rw [List.drop_drop, ← Nat.add_assoc]
    rfl
  rw [behind] at readKey
  have inValue : 4 + announced (beNat ((src.drop (24 + announced (keyLenField src))).take 4)) ≤
      (src.drop (24 + announced (keyLenField src))).length := by
    rw [List.length_drop]
    change 4 + announced (valueLenField src) ≤ _
    omega
  obtain ⟨value, readValue⟩ := decodeField_isSome inValue
  rw [decode_of_arrived arrived, readKey, Option.bind_some]
  dsimp only
  rw [readValue]
  exact ⟨_, _, rfl⟩

/-- A record that arrived is read as a record or not at all. -/
theorem decode_eq_none_or_record (arrived : Arrived src) :
    decode src = none ∨ ∃ record rest, decode src = some (.ok (some record), rest) := by
  rw [decode_of_arrived arrived]
  cases decodeField (src.drop 20) with
  | none => exact .inl rfl
  | some found =>
    obtain ⟨key, behind⟩ := found
    rw [Option.bind_some]
    dsimp only
    cases decodeField behind with
    | none => exact .inl rfl
    | some last => exact .inr ⟨_, _, rfl⟩

/-- For a record that was read, staying within it is a matter of its lengths. -/
theorem contained_iff_of_accepted (arrived : Arrived src)
    (read : decode src = some (.ok (some record), rest)) : Contained src ↔ LengthsAgree src := by
  obtain ⟨shape, -⟩ := decode_accepted arrived read
  obtain ⟨key, value⟩ := announced_of_accepted arrived read
  have lengths : 28 + announced (keyLenField src) + announced (valueLenField src) =
      recordLen record.key record.value := by
    rw [key, value, recordLen]
    omega
  unfold Contained LengthsAgree
  rw [read, lengths]
  constructor
  · rintro ⟨encoded, consumed⟩
    have total := congrArg List.length encoded
    rw [List.length_append, length_encode] at total
    omega
  · intro agree
    have encoded : src = record.encode ++ rest := by
      rw [agree] at shape
      rw [encode_eq, List.append_assoc]
      exact shape
    have total := congrArg List.length encoded
    rw [List.length_append, length_encode] at total
    refine ⟨encoded, ?_⟩
    omega

/-- The decoder stays within its record exactly where it takes no record, or the
record's three lengths agree. Elsewhere it runs past the buffer and panics, or
takes fewer or more bytes than the record has. -/
theorem decode_contained_iff (src : Bytes) :
    Contained src ↔
      src.length < 4 ∨ recordLenField src < 28 ∨ src.length < recordLenField src ∨
        LengthsAgree src := by
  by_cases missing : src.length < 4 ∨ recordLenField src < 28 ∨ src.length < recordLenField src
  · have contained := contained_of_not_arrived missing
    tauto
  have arrived : Arrived src := by
    constructor <;> omega
  have agreed : (src.length < 4 ∨ recordLenField src < 28 ∨ src.length < recordLenField src ∨
      LengthsAgree src) ↔ LengthsAgree src := by tauto
  rw [agreed]
  rcases decode_eq_none_or_record arrived with stopped | ⟨record, rest, read⟩
  · constructor
    · intro contained
      unfold Contained at contained
      rw [stopped] at contained
      exact contained.elim
    · intro agree
      obtain ⟨record, rest, read⟩ := decode_of_lengthsAgree arrived agree
      rw [stopped] at read
      cases read
  · exact contained_iff_of_accepted arrived read

/-- Twenty-eight bytes that announce a record of twenty-eight bytes with a key
of five, of which four are there. -/
def keyPastBuffer : Bytes :=
  beBytes 4 28 ++ beBytes 8 0 ++ beBytes 8 0 ++ beBytes 4 5 ++ [1, 2, 3, 4]

/-- A record of twenty-eight bytes whose value is the byte behind it. -/
def valuePastRecord : Bytes :=
  beBytes 4 28 ++ beBytes 8 0 ++ beBytes 8 0 ++ beBytes 4 u32Max ++ beBytes 4 1 ++ [7]

/-- A record with a byte that belongs to no field. -/
def slackRecord : Bytes :=
  beBytes 4 29 ++ beBytes 8 0 ++ beBytes 8 0 ++ beBytes 4 u32Max ++ beBytes 4 0 ++ [7]

/-- A segment with these log bytes and an empty index. -/
def worldOfLog (data : Bytes) : World :=
  (blankWorld.put (logPath [] 0) data).put (indexPath [] 0) []

/-- A key length past the buffer stops the process, also while a segment is
loaded; a value length past the record takes bytes that are not its own, and one
that is too short leaves bytes of the record behind. -/
theorem decode_leaves_record :
    decode keyPastBuffer = none ∧
      ((Segment.load [] 0 1000 .none).run (worldOfLog keyPastBuffer)).1 = .error .panic ∧
      decode valuePastRecord = some (.ok (some ⟨0, 0, none, some [7]⟩), []) ∧
      decode slackRecord = some (.ok (some ⟨0, 0, none, some []⟩), [7]) ∧
      ¬ Contained keyPastBuffer ∧ ¬ Contained valuePastRecord ∧ ¬ Contained slackRecord := by
  have first : decode keyPastBuffer = none := by decide
  have second : decode valuePastRecord = some (.ok (some ⟨0, 0, none, some [7]⟩), []) := by decide
  have third : decode slackRecord = some (.ok (some ⟨0, 0, none, some []⟩), [7]) := by decide
  refine ⟨first, rfl, second, third, ?_, ?_, ?_⟩
  · unfold Contained
    rw [first]
    exact id
  · unfold Contained
    rw [second]
    decide
  · unfold Contained
    rw [third]
    decide

end Record

end Ruka
