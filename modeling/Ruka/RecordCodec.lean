import Ruka.Errors

/-! Records as the log stores them. `Record.decode` reads three lengths from
the same bytes and only checks the outer one, so a read it did not guard stops
the process; it has no result there. -/
namespace Ruka
open BigEndian

def u32Max : Nat := 2 ^ 32 - 1

/-- `segment.rs::Record`. -/
structure Record where
  offset : Nat
  timestampMs : Nat
  key : Option Bytes
  value : Option Bytes
  deriving DecidableEq

/-- `map_or(0, |bytes| bytes.len())`. -/
def fieldLen (field : Option Bytes) : Nat := (field.map List.length).getD 0

/-- Length of a record with these fields, prefix included. -/
def recordLen (key value : Option Bytes) : Nat := 4 + 8 + 8 + 4 + fieldLen key + 4 + fieldLen value

/-- A key or value behind its own length; `u32::MAX` stands for absence. -/
def encodeField : Option Bytes → Bytes
  | some bytes => beBytes 4 bytes.length ++ bytes
  | none => beBytes 4 u32Max

def decodeField (src : Bytes) : Option (Option Bytes × Bytes) := do
  let (length, src) ← getUint 4 src
  if length = u32Max then pure (none, src)
  else do
    let (bytes, src) ← splitTo length src
    pure (some bytes, src)

namespace Record

/-- `Record::encode`, as the bytes it appends to its buffer. -/
def encode (record : Record) : Bytes :=
  beBytes 4 (recordLen record.key record.value) ++ beBytes 8 record.offset ++
    beBytes 8 record.timestampMs ++ encodeField record.key ++ encodeField record.value

/-- `Record::decode`: the answer and the buffer afterwards, or a panic. -/
def decode (src : Bytes) : Option (Except RukaError (Option Record) × Bytes) :=
  if src.length < 4 then some (.ok none, src)
  else do
    let (recordLen, _) ← getUint 4 src
    if recordLen < 28 then pure (.error (.invalidFrame "Record length too small"), src)
    else if src.length < recordLen then pure (.ok none, src)
    else do
      let (_, src) ← splitTo 4 src
      let (offset, src) ← getUint 8 src
      let (timestampMs, src) ← getUint 8 src
      let (key, src) ← decodeField src
      let (value, src) ← decodeField src
      pure (.ok (some ⟨offset, timestampMs, key, value⟩), src)

/-- Every number of the record fits the field it is written to. -/
structure Fits (record : Record) : Prop where
  size : recordLen record.key record.value < 2 ^ 32
  offset : record.offset < 2 ^ 64
  timestampMs : record.timestampMs < 2 ^ 64

end Record

theorem length_encodeField (field : Option Bytes) :
    (encodeField field).length = 4 + fieldLen field := by
  cases field <;> simp [encodeField, fieldLen]

@[simp] theorem Record.length_encode (record : Record) :
    record.encode.length = recordLen record.key record.value := by
  simp only [Record.encode, List.length_append, length_beBytes, length_encodeField, recordLen]
  omega

theorem recordLen_ge (key value : Option Bytes) : 28 ≤ recordLen key value := by
  unfold recordLen
  omega

private theorem decodeField_encodeField (fits : fieldLen field < u32Max) (rest : Bytes) :
    decodeField (encodeField field ++ rest) = some (field, rest) := by
  cases field with
  | none =>
    rw [encodeField, decodeField, getUint_beBytes_of_lt (by decide)]
    rfl
  | some bytes =>
    have length : bytes.length < u32Max := by simpa [fieldLen] using fits
    have narrow : bytes.length < 256 ^ 4 := by
      unfold u32Max at length
      omega
    have present : bytes.length ≠ u32Max := by omega
    rw [encodeField, decodeField, List.append_assoc, getUint_beBytes_of_lt narrow]
    simp only [Option.bind_eq_bind, Option.bind_some, present, ↓reduceIte, splitTo_append]
    rfl

namespace Record

/-- A record that fits its fields reads back, whatever follows it. -/
theorem decode_encode (fits : Fits record) (rest : Bytes) :
    decode (record.encode ++ rest) = some (.ok (some record), rest) := by
  have size : recordLen record.key record.value < 256 ^ 4 := fits.size
  have offset : record.offset < 256 ^ 8 := fits.offset
  have timestampMs : record.timestampMs < 256 ^ 8 := fits.timestampMs
  have atLeast := recordLen_ge record.key record.value
  have keyFits : fieldLen record.key < u32Max := by
    simp only [recordLen, u32Max] at size ⊢
    omega
  have valueFits : fieldLen record.value < u32Max := by
    simp only [recordLen, u32Max] at size ⊢
    omega
  have whole : (record.encode ++ rest).length = recordLen record.key record.value +
      rest.length := by
    rw [List.length_append, length_encode]
  obtain ⟨body, shape⟩ : ∃ body, body = beBytes 8 record.offset ++ (beBytes 8 record.timestampMs ++
      (encodeField record.key ++ (encodeField record.value ++ rest))) := ⟨_, rfl⟩
  have split : record.encode ++ rest = beBytes 4 (recordLen record.key record.value) ++ body := by
    simp only [shape, encode, List.append_assoc]
  have skipped : splitTo 4 (record.encode ++ rest) =
      some (beBytes 4 (recordLen record.key record.value), body) := by
    rw [split]
    simpa using splitTo_append (beBytes 4 (recordLen record.key record.value)) body
  have peeked : getUint 4 (record.encode ++ rest) =
      some (recordLen record.key record.value, body) := by
    rw [split, getUint_beBytes_of_lt size]
  rw [decode, if_neg (by omega), peeked]
  simp only [Option.bind_eq_bind, Option.bind_some]
  rw [if_neg (by omega), if_neg (by omega), skipped, shape]
  simp only [Option.bind_some, getUint_beBytes_of_lt offset, getUint_beBytes_of_lt timestampMs,
    decodeField_encodeField keyFits, decodeField_encodeField valueFits]
  rfl

/-- A torn record is not read, and nothing of it is consumed. -/
theorem decode_torn (fits : Fits record) (count : Nat) (torn : count < record.encode.length) :
    decode (record.encode.take count) = some (.ok none, record.encode.take count) := by
  have size : recordLen record.key record.value < 256 ^ 4 := fits.size
  have length : (record.encode.take count).length = count := by
    rw [List.length_take]
    omega
  unfold decode
  by_cases short : count < 4
  · rw [if_pos (by omega)]
  · rw [if_neg (by omega)]
    have shape : record.encode.take count = beBytes 4 (recordLen record.key record.value) ++
        (record.encode.drop 4).take (count - 4) := by
      have front : record.encode.take 4 = beBytes 4 (recordLen record.key record.value) := by
        simp only [encode, List.append_assoc]
        exact List.take_left' (length_beBytes 4 _)
      rw [← front, ← List.take_add]
      congr 1
      omega
    have peeked : getUint 4 (record.encode.take count) =
        some (recordLen record.key record.value, (record.encode.drop 4).take (count - 4)) := by
      rw [shape, getUint_beBytes_of_lt size]
    have atLeast := recordLen_ge record.key record.value
    rw [length_encode] at torn
    rw [peeked]
    simp only [Option.bind_eq_bind, Option.bind_some]
    rw [if_neg (by omega), if_pos (by omega)]
    rfl

end Record

/-- The log bytes of consecutive records. -/
def encodeAll (records : List Record) : Bytes := records.flatMap Record.encode

@[simp] theorem encodeAll_nil : encodeAll [] = [] := rfl

@[simp] theorem encodeAll_cons (record : Record) (records : List Record) :
    encodeAll (record :: records) = record.encode ++ encodeAll records := rfl

@[simp] theorem encodeAll_append (first second : List Record) :
    encodeAll (first ++ second) = encodeAll first ++ encodeAll second := by
  simp [encodeAll]

theorem encodeAll_length_pos (nonempty : records ≠ []) : 0 < (encodeAll records).length := by
  obtain ⟨record, rest, rfl⟩ := List.exists_cons_of_ne_nil nonempty
  have atLeast := recordLen_ge record.key record.value
  rw [encodeAll_cons, List.length_append, Record.length_encode]
  omega

theorem length_le_encodeAll (records : List Record) :
    records.length ≤ (encodeAll records).length := by
  induction records with
  | nil => exact Nat.le_refl _
  | cons record rest ih =>
    have atLeast := recordLen_ge record.key record.value
    rw [encodeAll_cons, List.length_append, Record.length_encode, List.length_cons]
    omega

end Ruka
