import Ruka.SegmentAdditions

/-! An append that fails behind its write to the log. Its records stay in the
log and the counters do not move, so every later record lies behind the place
the index gives it: the reader finds there what the failed call has written. -/
namespace Ruka
open BigEndian LexicalPaths FilePrograms SortedSearch

/-- Reading the offset gives this key and value. -/
def Segment.Returns (world : World) (segment : Segment)
    (receipt : (Option Bytes × Option Bytes) × Nat) : Prop :=
  ∃ record moved, (segment.readAt receipt.2).run world = (.ok (.ok (some record), moved), world) ∧
    (record.key, record.value) = receipt.1

/-- A segment whose log has the records of a failed call between the older ones
and the later ones, and whose index has entries of the first few of them only. -/
structure Segment.Shifted (world : World) (segment : Segment) (baseOffset : Nat)
    (old failed indexed later : List Message) : Prop where
  within : indexed <+: failed
  base : segment.baseOffset = baseOffset
  next : segment.nextOffset = baseOffset + old.length + later.length
  log : world.file? segment.logFile.path = some (encodeAll (numbered baseOffset old ++
    (numbered (baseOffset + old.length) failed ++ numbered (baseOffset + old.length) later)))
  entries : segment.index.entries = positions 0 (numbered baseOffset old) ++
    (positions (encodeAll (numbered baseOffset old)).length
      (numbered (baseOffset + old.length) indexed) ++
        positions (encodeAll (numbered baseOffset old)).length
          (numbered (baseOffset + old.length) later))

/-- How long records are is a matter of their keys and values. -/
theorem length_encodeAll_congr {records others : List Record}
    (same : records.map (fun record => (record.key, record.value)) =
      others.map fun record => (record.key, record.value)) :
    (encodeAll records).length = (encodeAll others).length := by
  induction records generalizing others with
  | nil =>
    rw [List.map_nil, eq_comm, List.map_eq_nil_iff] at same
    rw [same]
  | cons record rest ih =>
    cases others with
    | nil => simp at same
    | cons other more =>
      simp only [List.map_cons, List.cons.injEq, Prod.mk.injEq] at same
      simp only [encodeAll_cons, List.length_append, Record.length_encode, same.1, ih same.2]

private theorem map_numbered (offset : Nat) (messages : List Message) :
    (numbered offset messages).map (fun record => (record.key, record.value)) =
      messages.map Message.content := by
  induction messages generalizing offset with
  | nil => rfl
  | cons message rest ih => simp [numbered, ih, Message.record, Message.content]

private theorem take_positions (position offset count : Nat) (messages : List Message) :
    (positions position (numbered offset messages)).take count =
      positions position (numbered offset (messages.take count)) := by
  induction messages generalizing position offset count with
  | nil => simp [numbered, positions]
  | cons message rest ih =>
    cases count with
    | zero => rfl
    | succ count => simp only [numbered, positions, List.take_succ_cons, ih]

/-- An entry leads behind all the records that are in front of its own. -/
theorem position_of_mem_positions (member : entry ∈ positions position (numbered offset messages))
    (here : entry.offset = offset + place) : place < messages.length ∧
      entry.position = position + (encodeAll (numbered offset (messages.take place))).length := by
  induction messages generalizing position offset place with
  | nil => cases member
  | cons message rest ih =>
    rw [numbered, positions, List.mem_cons] at member
    rcases member with rfl | member
    · obtain rfl : place = 0 := by
        change offset = offset + place at here
        omega
      exact ⟨Nat.zero_lt_succ _, rfl⟩
    · have behind := (offset_bounds_of_mem_positions member).1
      obtain ⟨place, rfl⟩ : ∃ earlier, place = earlier + 1 := ⟨place - 1, by omega⟩
      obtain ⟨inside, same⟩ := ih member (by rw [here, Nat.add_right_comm, Nat.add_assoc])
      refine ⟨Nat.succ_lt_succ inside, ?_⟩
      rw [same, List.take_succ_cons, numbered, encodeAll_cons, List.length_append, Nat.add_assoc]

/-- Offsets go on from one record to the next, and from the last one to entries
that start no further on. -/
theorem gapless_positions_append {entries : List IndexEntry}
    (gapless : Gapless entries IndexEntry.offset)
    (start : ∀ entry ∈ entries.head?, entry.offset ≤ offset + messages.length) :
    Gapless (positions position (numbered offset messages) ++ entries) IndexEntry.offset := by
  induction messages generalizing position offset with
  | nil => exact gapless
  | cons message rest ih =>
    rw [List.length_cons, ← Nat.add_assoc, Nat.add_right_comm] at start
    refine List.isChain_cons.mpr ⟨fun entry first => ?_, ih start⟩
    cases rest with
    | nil => exact start entry first
    | cons next more =>
      cases first
      exact Nat.le_refl _

private theorem head?_positions_append {entries : List IndexEntry} (low : offset ≤ bound)
    (start : ∀ entry ∈ entries.head?, entry.offset ≤ bound) :
    ∀ entry ∈ (positions position (numbered offset messages) ++ entries).head?,
    entry.offset ≤ bound := by
  cases messages with
  | nil => exact start
  | cons message rest =>
    rintro entry ⟨rfl⟩
    exact low

private theorem getLast?_positions (nonempty : messages ≠ []) :
    ∃ entry ∈ (positions position (numbered offset messages)).getLast?,
      entry.offset + 1 = offset + messages.length := by
  obtain rfl | ⟨front, last, rfl⟩ := List.eq_nil_or_concat messages
  · exact absurd rfl nonempty
  · refine ⟨⟨offset + front.length, position + (encodeAll (numbered offset front)).length⟩, ?_, ?_⟩
    · simp [numbered_append, positions_append, numbered, positions, Message.record]
    · simp [Nat.add_assoc]

private theorem exists_split_of_getElem? {items : List α} (held : items[place]? = some item) :
    ∃ front back, items = front ++ item :: back ∧ front.length = place := by
  obtain ⟨inside, rfl⟩ := List.getElem?_eq_some_iff.mp held
  exact ⟨items.take place, items.drop (place + 1), by simp,
    List.length_take_of_le (Nat.le_of_lt inside)⟩

/-- A receipt belongs to one of the messages. -/
theorem exists_of_mem_receipts {messages : List Message}
    (member : receipt ∈ (messages.map Message.content).zipIdx offset) :
    ∃ front message back, messages = front ++ message :: back ∧
    receipt = (message.content, offset + front.length) := by
  induction messages generalizing offset with
  | nil => cases member
  | cons message rest ih =>
    rw [List.map_cons, List.zipIdx_cons, List.mem_cons] at member
    rcases member with rfl | member
    · exact ⟨[], message, rest, rfl, rfl⟩
    · obtain ⟨front, other, back, rfl, rfl⟩ := ih member
      refine ⟨message :: front, other, back, rfl, ?_⟩
      rw [List.length_cons, Nat.add_assoc, Nat.add_comm 1]

namespace Segment
variable {world : World} {segment : Segment} {record : Record}

private theorem Returns.unique (first : segment.Returns world (content, offset))
    (second : segment.Returns world (other, offset)) : content = other := by
  obtain ⟨record, moved, ran, rfl⟩ := first
  obtain ⟨twin, again, same, rfl⟩ := second
  cases ran.symm.trans same
  rfl

/-- The index points at a record, and that is what is read. -/
theorem returns_of_lookup
    (held : world.file? segment.logFile.path = some (before ++ (record.encode ++ rest)))
    (found : segment.index.lookup offset = some before.length)
    (inside : segment.baseOffset ≤ offset ∧ offset < segment.nextOffset) (fits : record.Fits) :
    segment.Returns world ((record.key, record.value), offset) := by
  obtain ⟨cursor, ran⟩ := run_readAt_at held (by omega) found fits
  exact ⟨record, _, ran, rfl⟩

end Segment

namespace Segment.Shifted
variable {world : World} {segment : Segment} {baseOffset : Nat}
  {old failed indexed later : List Message}

/-- What was acknowledged before the failure is not affected. -/
theorem returns_old (shifted : segment.Shifted world baseOffset old failed indexed later)
    (small : Small old) (width : old ≠ [] → baseOffset + old.length < 2 ^ 64)
    (member : receipt ∈ (old.map Message.content).zipIdx baseOffset) :
    segment.Returns world receipt := by
  obtain ⟨front, message, back, rfl, rfl⟩ := exists_of_mem_receipts member
  have bound := width (by simp)
  have next := shifted.next
  simp only [List.length_append, List.length_cons] at bound next
  have log : world.file? segment.logFile.path = some (encodeAll (numbered baseOffset front) ++
      ((message.record (baseOffset + front.length)).encode ++
        encodeAll (numbered (baseOffset + front.length + 1) back ++
          (numbered (baseOffset + (front ++ message :: back).length) failed ++
            numbered (baseOffset + (front ++ message :: back).length) later)))) := by
    rw [shifted.log]
    simp [numbered_append, numbered]
  generalize tail : positions (encodeAll (numbered baseOffset (front ++ message :: back))).length
      (numbered (baseOffset + (front ++ message :: back).length) indexed) ++
    positions (encodeAll (numbered baseOffset (front ++ message :: back))).length
      (numbered (baseOffset + (front ++ message :: back).length) later) = strays
  have entries : segment.index.entries = positions 0 (numbered baseOffset front) ++
      ⟨baseOffset + front.length, (encodeAll (numbered baseOffset front)).length⟩ ::
        (positions ((encodeAll (numbered baseOffset front)).length +
            (message.record (baseOffset + front.length)).encode.length)
          (numbered (baseOffset + front.length + 1) back) ++ strays) := by
    rw [shifted.entries, tail]
    simp [numbered_append, positions_append, numbered, positions, Message.record]
  have above : ∀ entry ∈ strays, baseOffset + front.length < entry.offset := by
    intro entry stray
    rw [← tail, List.mem_append] at stray
    have stands := stray.elim (fun old => (offset_bounds_of_mem_positions old).1)
      fun new => (offset_bounds_of_mem_positions new).1
    simp only [List.length_append, List.length_cons] at stands
    omega
  refine returns_of_lookup log
    (Index.lookup_last entries (fun entry held => ?_) fun entry held => ?_)
      ⟨by rw [shifted.base]; omega, by omega⟩
        (Message.fits_record (small message (by simp)) (by omega))
  · exact Nat.le_of_lt (offset_bounds_of_mem_positions held).2
  · exact (List.mem_append.mp held).elim
      (fun behind => (offset_bounds_of_mem_positions behind).1) (above entry)

/-- The offsets in the index start again at most once, at the first later record,
so the search does find an entry of a later offset: of the failed call or of the
call that took the offset. -/
theorem exists_lookup (shifted : segment.Shifted world baseOffset old failed indexed later)
    (inside : place < later.length) : ∃ messages entry, (messages = indexed ∨ messages = later) ∧
      entry ∈ positions (encodeAll (numbered baseOffset old)).length
        (numbered (baseOffset + old.length) messages) ∧
      entry.offset = baseOffset + old.length + place ∧
      segment.index.lookup (baseOffset + old.length + place) = some entry.position := by
  have entries := shifted.entries
  generalize (encodeAll (numbered baseOffset old)).length = start at entries ⊢
  generalize begun : baseOffset + old.length = offset at entries ⊢
  have newGapless : Gapless (positions start (numbered offset later) ++ []) IndexEntry.offset :=
    gapless_positions_append .nil nofun
  have newHead : ∀ entry ∈ (positions start (numbered offset later) ++ []).head?,
      entry.offset ≤ offset :=
    head?_positions_append (Nat.le_refl _) nofun
  rw [List.append_nil] at newGapless newHead
  have restGapless :
      Gapless (positions start (numbered offset indexed) ++ positions start (numbered offset later))
        IndexEntry.offset :=
    gapless_positions_append newGapless fun entry first =>
      Nat.le_add_right_of_le (newHead entry first)
  have restHead : ∀ entry ∈ (positions start (numbered offset indexed) ++
      positions start (numbered offset later)).head?, entry.offset ≤ offset :=
    head?_positions_append (Nat.le_refl _) newHead
  obtain ⟨final, ends, reached⟩ : ∃ entry ∈ (positions start (numbered offset later)).getLast?,
      entry.offset + 1 = offset + later.length :=
    getLast?_positions (List.length_pos_iff.mp (by omega))
  obtain ⟨entry, member, here, found⟩ : ∃ entry ∈ segment.index.entries,
      entry.offset = offset + place ∧
        segment.index.lookup (offset + place) = some entry.position := by
    apply Index.lookup_gapless
    · rw [entries]
      exact gapless_positions_append restGapless (begun ▸ restHead)
    · rw [entries]
      exact head?_positions_append (by omega) fun entry first =>
        Nat.le_add_right_of_le (restHead entry first)
    · refine ⟨final, ?_, by omega⟩
      rw [entries, ← List.append_assoc, List.getLast?_append, Option.mem_def.mp ends]
      rfl
  rw [entries, List.mem_append, List.mem_append] at member
  rcases member with first | stale | new
  · have bound := (offset_bounds_of_mem_positions first).2
    omega
  · exact ⟨indexed, entry, .inl rfl, stale, here, found⟩
  · exact ⟨later, entry, .inr rfl, new, here, found⟩

/-- A record of the failed call or of a later one fits its place in the log. -/
private theorem fits_physical
    (held : (numbered offset failed ++ numbered offset later)[place]? = some record)
    (inside : place < later.length) (small : Small (failed ++ later))
    (width : offset + later.length < 2 ^ 64) : record.Fits := by
  rcases Nat.lt_or_ge place failed.length with first | second
  · rw [List.getElem?_append_left (by simpa using first), numbered_getElem?] at held
    obtain ⟨message, found, rfl⟩ := Option.map_eq_some_iff.mp held
    exact Message.fits_record (small message
      (List.mem_append_left _ (List.mem_of_getElem? found))) (by omega)
  · rw [List.getElem?_append_right (by simpa using second), numbered_getElem?] at held
    obtain ⟨message, found, rfl⟩ := Option.map_eq_some_iff.mp held
    exact Message.fits_record (small message (List.mem_append_right _ (List.mem_of_getElem? found)))
      (by rw [length_numbered]; omega)

/-- As long as the later calls repeated what the failed one wrote, the index
points at the start of some record: the one at the same place of the log. The
entries of the failed call and those of the later ones agree that far. -/
theorem returns_later (shifted : segment.Shifted world baseOffset old failed indexed later)
    (small : Small (failed ++ later)) (width : baseOffset + old.length + later.length < 2 ^ 64)
    (inside : place < later.length)
    (agree : (later.map Message.content).take place =
      ((failed ++ later).map Message.content).take place) :
    ∃ content, ((failed ++ later).map Message.content)[place]? = some content ∧
      segment.Returns world (content, baseOffset + old.length + place) := by
  obtain ⟨messages, entry, source, member, here, found⟩ := shifted.exists_lookup inside
  have log := shifted.log
  have next := shifted.next
  have base := shifted.base
  generalize start : baseOffset + old.length = offset at log next member here found width ⊢
  generalize physical : numbered offset failed ++ numbered offset later = records at log
  obtain ⟨reaches, position⟩ := position_of_mem_positions member here
  have aligned : (messages.map Message.content).take place =
      ((failed ++ later).map Message.content).take place := by
    rcases source with rfl | rfl
    · obtain ⟨rest, shape⟩ := shifted.within.trans (List.prefix_append failed later)
      rw [← shape, List.map_append,
        List.take_append_of_le_length (by simpa using Nat.le_of_lt reaches)]
    · exact agree
  have contents : records.map (fun record => (record.key, record.value)) =
      (failed ++ later).map Message.content := by
    simp only [← physical, List.map_append, map_numbered]
  have stored : place < records.length := by
    rw [← physical, List.length_append, length_numbered, length_numbered]
    omega
  obtain ⟨record, held⟩ : ∃ record, records[place]? = some record :=
    ⟨_, List.getElem?_eq_getElem stored⟩
  have fits : record.Fits := fits_physical (by rw [physical]; exact held) inside small width
  refine ⟨(record.key, record.value), by rw [← contents, List.getElem?_map, held]; rfl, ?_⟩
  obtain ⟨before, behind, rfl, same⟩ := exists_split_of_getElem? held
  -- the records in front are as long here as there
  have length : (encodeAll (numbered offset (messages.take place))).length =
      (encodeAll before).length := by
    apply length_encodeAll_congr
    rw [map_numbered, List.map_take, aligned, ← contents, ← same]
    simp
  rw [encodeAll_append, encodeAll_append, encodeAll_cons, ← List.append_assoc] at log
  refine returns_of_lookup log ?_ ⟨by rw [base]; omega, by omega⟩ fits
  rw [found, position, length, List.length_append]

/-- Every later record is returned as it was acknowledged exactly when the later
calls repeat, from its start, what the failed call wrote. -/
theorem returns_later_iff (shifted : segment.Shifted world baseOffset old failed indexed later)
    (small : Small (failed ++ later))
    (width : later ≠ [] → baseOffset + old.length + later.length < 2 ^ 64) :
    (∀ receipt ∈ (later.map Message.content).zipIdx (baseOffset + old.length),
      segment.Returns world receipt) ↔
      later.map Message.content <+: (failed ++ later).map Message.content := by
  constructor
  · intro returned
    have agree : ∀ place ≤ later.length,
        (later.map Message.content).take place =
          ((failed ++ later).map Message.content).take place := by
      intro place
      induction place with
      | zero => exact fun _ => rfl
      | succ place ih =>
        intro inside
        have nonempty : later ≠ [] := List.length_pos_iff.mp (by omega)
        have before := ih (by omega)
        obtain ⟨content, held, found⟩ := shifted.returns_later small (width nonempty) inside before
        have here := List.getElem?_eq_getElem inside
        have acked := returned ((later[place]).content, baseOffset + old.length + place) (by
          rw [List.mk_mem_zipIdx_iff_le_and_getElem?_sub, Nat.add_sub_cancel_left,
            List.getElem?_map, here]
          exact ⟨Nat.le_add_right _ _, rfl⟩)
        rw [List.take_add_one, List.take_add_one, before, held, List.getElem?_map, here,
          found.unique acked]
        rfl
    have whole := agree later.length (Nat.le_refl _)
    rw [List.take_of_length_le (by simp)] at whole
    rw [whole]
    exact List.take_prefix _ _
  · intro starts receipt member
    obtain ⟨front, message, back, shape, rfl⟩ := exists_of_mem_receipts member
    have inside : front.length < later.length := by simp [shape]
    have agree : (later.map Message.content).take front.length =
        ((failed ++ later).map Message.content).take front.length := by
      obtain ⟨rest, whole⟩ := starts
      rw [← whole, List.take_append_of_le_length (by simpa using Nat.le_of_lt inside)]
    obtain ⟨content, held, found⟩ :=
      shifted.returns_later small (width (by simp [shape])) inside agree
    have same : (later.map Message.content)[front.length]? =
        ((failed ++ later).map Message.content)[front.length]? := by
      obtain ⟨rest, whole⟩ := starts
      rw [← whole, List.getElem?_append_left (by simpa using inside)]
    rw [held, shape] at same
    have equal : message.content = content := by simpa using same
    rw [equal]
    exact found

end Segment.Shifted

/-- Everything acknowledged before and after a call that failed behind its write
to the log is returned exactly when the later calls repeat the failed one from
its start. However many entries of a batch got into the index before the failure
makes no difference: they lead where those of the later calls do as long as the
later calls repeat the batch. -/
theorem failed_append_harmless_iff {world between after : World} {segment broken result : Segment}
    {dir : Path} {baseOffset maxBytes : Nat} {syncLevel : SyncLevel} {addition : Addition}
    (written : Segment.Written dir baseOffset maxBytes syncLevel receipts world segment)
    (fails : (segment.add addition).Fails segment.AfterLog world (.error error, broken) between)
    (adds : broken.Adds between later after result)
    (small : ∀ content ∈ receipts.map Prod.fst ++
        addition.contents (addition.room segment.maxBytes segment.currentSize) ++
          later.map Prod.fst,
      recordLen content.1 content.2 < 2 ^ 32) :
    (∀ receipt ∈ receipts ++ later, result.Returns after receipt) ↔
      later.map Prod.fst <+:
        addition.contents (addition.room segment.maxBytes segment.currentSize) ++
          later.map Prod.fst := by
  obtain ⟨old, cursor, rfl, onDisk, rfl, oldWidths⟩ := written.tile
  have apart := Ne.symm (logPath_ne_indexPath dir baseOffset baseOffset)
  obtain ⟨failed, count, contents, stored⟩ := Segment.add_fails apart fails
  obtain ⟨place, further, rfl⟩ := stored.shape
  obtain ⟨more, rfl, grows⟩ := adds.grows apart
  obtain ⟨last, final, shape⟩ := grows.shape
  obtain ⟨log, behind⟩ := stored.log _ onDisk.log (.inl rfl)
  obtain ⟨grown, -⟩ := grows.log _ log behind
  rw [← contents] at small ⊢
  simp only [List.zipIdx_map_fst, List.mem_append] at small ⊢
  have smallOld : Small old := small_of_content fun content member =>
    small content (.inl (.inl member))
  have smallFailed : Small failed := small_of_content fun content member =>
    small content (.inl (.inr member))
  have smallMore : Small more := small_of_content fun content member => small content (.inr member)
  have shifted : result.Shifted after baseOffset old failed (failed.take count) more := by
    refine ⟨List.take_prefix _ _, by rw [shape]; rfl, by rw [shape]; rfl, ?_, ?_⟩
    · rw [shape, encodeAll_append, encodeAll_append, ← List.append_assoc]
      exact grown
    · rw [shape, ← take_positions]
      exact List.append_assoc _ _ _
  have older : ∀ receipt ∈ (old.map Message.content).zipIdx baseOffset,
      result.Returns after receipt :=
    fun receipt member =>
      shifted.returns_old smallOld (fun nonempty => (oldWidths nonempty).1) member
  have newer := shifted.returns_later_iff
    (fun message member => (List.mem_append.mp member).elim (smallFailed message)
      (smallMore message))
    fun nonempty => by
      have width := (grows.widths nonempty).1
      rwa [shape] at width
  rw [List.map_append] at newer
  rw [← newer]
  exact ⟨fun all receipt member => all receipt (.inr member), fun returned receipt member =>
    member.elim (older receipt) (returned receipt)⟩

/-- A new segment, and the same after an append whose index write failed. -/
private def madeSegment : Segment := (Tile.fresh 0).segment [] 1000 .none

private def madeWorld : World := ((Segment.create [] 0 1000 .none).run blankWorld).2

private def brokenSegment : Segment :=
  { madeSegment with logFile := { madeSegment.logFile with cursor := 29 } }

private def brokenWorld : World :=
  ((madeSegment.logFile.writeAll (Record.encode ⟨0, 0, none, some [1]⟩)).run madeWorld.tick).2

private theorem written_madeSegment : Segment.Written [] 0 1000 .none [] madeWorld madeSegment := by
  have created : ((Segment.create [] 0 1000 .none).run blankWorld).1 =
      .ok (.ok madeSegment) := by decide +kernel
  exact ⟨blankWorld, _, _, rfl, Prod.ext created rfl, .none⟩

set_option maxRecDepth 10000 in
private theorem fails_madeSegment :
    (madeSegment.add (.append none (some [1]))).Fails madeSegment.AfterLog madeWorld
      (.error (.io .fault), brokenSegment) brokenWorld :=
  -- behind the clock and the write to the log
  .inr (.inr (.inl ⟨rfl, (.error .fault, 0), _, ⟨0, rfl, rfl⟩, rfl⟩))

/-- Both records of the log, with what a later call left in index and counters. -/
private def laterSegment (value : Bytes) : Segment :=
  { (⟨0, [⟨1, none, some value⟩], true, 58⟩ : Tile).segment [] 1000 .none with logFile :=
    ⟨logPath [] 0, true, 58⟩ }

/-- The same after a batch of three whose third index write failed, and after the
batch was written again. -/
private def tornSegment : Segment :=
  { madeSegment with
    logFile := { madeSegment.logFile with cursor := 88 }
    index := ⟨{ madeSegment.index.file with cursor := 32 }, [⟨0, 0⟩, ⟨1, 29⟩]⟩ }

private def retriedSegment : Segment :=
  { madeSegment with
    logFile := { madeSegment.logFile with cursor := 176 }
    index := ⟨{ madeSegment.index.file with cursor := 80 },
      [⟨0, 0⟩, ⟨1, 29⟩, ⟨0, 0⟩, ⟨1, 29⟩, ⟨2, 59⟩]⟩
    currentSize := 88
    nextOffset := 3 }

private def tornWorld : World :=
  let log := ((madeSegment.logFile.writeAll
    (encodeAll [⟨0, 0, none, some [1]⟩, ⟨1, 0, none, some [2, 2]⟩, ⟨2, 0, none, some [3]⟩])).run
      madeWorld.tick).2
  let one := ((madeSegment.index.file.writeAll (IndexEntry.encode ⟨0, 0⟩)).run log).2
  (({ madeSegment.index.file with cursor := 16 }.writeAll (IndexEntry.encode ⟨1, 29⟩)).run one).2

set_option maxRecDepth 10000 in
private theorem fails_batch :
    (madeSegment.add (.appendBatch [[1], [2, 2], [3]])).Fails madeSegment.AfterLog madeWorld
      (.error (.io .fault), tornSegment) tornWorld :=
  -- behind the clock, the write to the log and two index entries
  .inr (.inr (.inr (.inr (.inl ⟨rfl, (.error .fault, 32), _, ⟨0, rfl, rfl⟩, rfl⟩))))

theorem failed_append_harmless_iff_retried : ∃ world segment broken between after result,
    Segment.Written [] 0 1000 .none [] world segment ∧
      (segment.add (.appendBatch [[1], [2, 2], [3]])).Fails segment.AfterLog world
        (.error (.io .fault), broken) between ∧
      broken.Adds between [((none, some [1]), 0), ((none, some [2, 2]), 1), ((none, some [3]), 2)]
        after result ∧
      ∀ receipt ∈ [((none, some [1]), 0), ((none, some [2, 2]), 1), ((none, some [3]), 2)],
        result.Returns after receipt := by
  have added : ((tornSegment.add (.appendBatch [[1], [2, 2], [3]])).run tornWorld).1 =
      .ok (.ok (0, 3), retriedSegment) := by decide +kernel
  obtain ⟨after, ran⟩ : ∃ after, (tornSegment.add (.appendBatch [[1], [2, 2], [3]])).run tornWorld =
      (.ok (.ok (0, 3), retriedSegment), after) := by
    rw [← added]
    exact ⟨_, rfl⟩
  have adds : tornSegment.Adds tornWorld [((none, some [1]), 0), ((none, some [2, 2]), 1),
      ((none, some [3]), 2)] after retriedSegment := .more .none ran
  have returned :=
    (failed_append_harmless_iff written_madeSegment fails_batch adds (by decide)).mpr (by decide)
  exact ⟨_, _, _, _, _, _, written_madeSegment, fails_batch, adds, returned⟩

/-- Another append after the failed one is acknowledged at offset 0, and reading
that offset returns the record that failed. -/
theorem failed_append_returned_later : ∃ world segment broken between after result,
    Segment.Written [] 0 1000 .none [] world segment ∧
      (segment.add (.append none (some [1]))).Fails segment.AfterLog world
        (.error (.io .fault), broken) between ∧
      broken.Adds between [((none, some [2]), 0)] after result ∧
      result.Returns after ((none, some [1]), 0) ∧
      ¬ result.Returns after ((none, some [2]), 0) := by
  have added : ((brokenSegment.add (.append none (some [2]))).run brokenWorld).1 =
      .ok (.ok (0, 1), laterSegment [2]) := by decide +kernel
  have adds : brokenSegment.Adds brokenWorld [((none, some [2]), 0)]
      ((brokenSegment.add (.append none (some [2]))).run brokenWorld).2 (laterSegment [2]) :=
    .more .none (Prod.ext added rfl)
  have read : (((laterSegment [2]).readAt 0).run
      ((brokenSegment.add (.append none (some [2]))).run brokenWorld).2).1 =
        .ok (.ok (some ⟨0, 0, none, some [1]⟩), laterSegment [2]) := by decide +kernel
  have found : (laterSegment [2]).Returns
      ((brokenSegment.add (.append none (some [2]))).run brokenWorld).2 ((none, some [1]), 0) :=
      ⟨_, _, Prod.ext read rfl, rfl⟩
  exact ⟨_, _, _, _, _, _, written_madeSegment, fails_madeSegment, adds, found, fun other =>
    absurd (found.unique other) (by decide)⟩

end Ruka
