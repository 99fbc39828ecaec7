import Ruka.Broker
import Ruka.StreamDecoding

/-! Records one behind the other. The length in front of each record ends it,
so a sequence of records is read back without separators, and the payload of a
fetch response stands for one list of records only. -/
namespace Ruka
open BigEndian StreamDecoding

/-- A client's reading of a fetch payload: the count, then so many records. -/
def readFetchPayload (payload : Bytes) : Option (List Record × Bytes) := do
  let (count, src) ← getUint 4 payload
  takeItems Record.decode count src

private theorem Record.Fits.readsBack {record : Record} (fits : record.Fits) :
    ReadsBack decode encode record :=
  decode_encode fits

private theorem Record.encode_ne_nil (record : Record) : record.encode ≠ [] := by
  have atLeast := recordLen_ge record.key record.value
  apply List.ne_nil_of_length_pos
  rw [length_encode]
  omega

private theorem takeItems_encodeAll (fits : ∀ record ∈ records, Record.Fits record) (rest : Bytes) :
    takeItems Record.decode records.length (encodeAll records ++ rest) = some (records, rest) :=
  takeItems_flatMap records (fun record member => (fits record member).readsBack) rest

/-- Two lists with the same payload are the same list, even if the count is cut
to its field. -/
theorem fetchPayload_inj (fits : ∀ record ∈ records, Record.Fits record)
    (fitsOthers : ∀ record ∈ others, Record.Fits record)
    (same : fetchPayload others = fetchPayload records) : others = records := by
  have behind : encodeAll others = encodeAll records := by
    have dropped := congrArg (List.drop 4) same
    rwa [fetchPayload, fetchPayload, List.drop_left' (length_beBytes 4 _),
      List.drop_left' (length_beBytes 4 _)] at dropped
  apply flatMap_encode_inj Record.encode_ne_nil others records
  · exact fun record member => (fitsOthers record member).readsBack
  · exact fun record member => (fits record member).readsBack
  · exact behind

private theorem readFetchPayload_fetchPayload (fits : ∀ record ∈ records, Record.Fits record)
    (counted : records.length < 2 ^ 32) :
    readFetchPayload (fetchPayload records) = some (records, []) := by
  have whole := takeItems_encodeAll fits []
  rw [List.append_nil] at whole
  have count : records.length < 256 ^ 4 := counted
  unfold readFetchPayload fetchPayload
  rw [getUint_beBytes_of_lt count]
  exact whole

/-- As many calls of the decoder as there are records read them back in order
and leave what is behind them. A fetch payload therefore determines its list, by
its bytes alone, and a client that reads the count gets that list. -/
theorem record_sequences_round_trip (records : List Record)
    (fits : ∀ record ∈ records, record.Fits) :
    (∀ rest, takeItems Record.decode records.length (encodeAll records ++ rest) =
        some (records, rest)) ∧
      (∀ others : List Record, (∀ record ∈ others, record.Fits) →
        fetchPayload others = fetchPayload records → others = records) ∧
      (records.length < 2 ^ 32 → readFetchPayload (fetchPayload records) = some (records, [])) := by
  refine ⟨fun rest => takeItems_encodeAll fits rest, ?_, readFetchPayload_fetchPayload fits⟩
  intro others fitsOthers same
  exact fetchPayload_inj fits fitsOthers same

/-- All four combinations of an absent, an empty and a filled field. -/
def sampleRecords : List Record :=
  [⟨0, 1000, none, some [109, 115, 103]⟩, ⟨1, 2000, some [], none⟩, ⟨2 ^ 64 - 1, 0, none, none⟩,
    ⟨7, 2 ^ 64 - 1, some [255], some []⟩]

theorem record_sequences_round_trip_sample :
    (∀ record ∈ sampleRecords, record.Fits) ∧
      readFetchPayload (fetchPayload sampleRecords) = some (sampleRecords, []) ∧
      takeItems Record.decode 4 (encodeAll sampleRecords ++ [1, 2]) =
        some (sampleRecords, [1, 2]) := by
  have fits : ∀ record ∈ sampleRecords, record.Fits := by
    simp only [sampleRecords, List.forall_mem_cons]
    refine ⟨?_, ?_, ?_, ?_, List.forall_mem_nil _⟩
    all_goals constructor <;> decide
  obtain ⟨sequence, -, payload⟩ := record_sequences_round_trip sampleRecords fits
  exact ⟨fits, payload (by decide), sequence [1, 2]⟩

end Ruka
