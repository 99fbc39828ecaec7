import Ruka.FaultyPrograms
import Ruka.SegmentRecovery

/-! Calls that append to a segment, one after the other, whatever its files
hold. The log, the index and the counters move by the same records, but from
where each of them stands: nothing brings them back together. -/
namespace Ruka
open BigEndian LexicalPaths FilePrograms

namespace Index
variable {world after : World} {index result : Index}

/-- The index file is what the index has in memory, and the cursor is behind it. -/
structure Filed (world : World) (index : Index) : Prop where
  shape : index = holding index.file.path index.entries
  file : world.file? index.file.path = some (encodeEntries index.entries)

/-- The index has these entries more, and no other file has changed. -/
structure Took (world : World) (index : Index) (entries : List IndexEntry) (result : Index)
    (after : World) : Prop where
  entries : result.entries = index.entries ++ entries
  handle : ∃ cursor, result.file = { index.file with cursor := cursor }
  others : ∀ probe, probe ≠ index.file.path → after.file? probe = world.file? probe

private theorem Took.trans {first more : List IndexEntry}
    (head : Took world index first middle between) (tail : Took between middle more result after) :
    Took world index (first ++ more) result after := by
  obtain ⟨cursor, moved⟩ := head.handle
  obtain ⟨place, again⟩ := tail.handle
  have path : middle.file.path = index.file.path := by rw [moved]
  refine ⟨?_, ⟨place, ?_⟩, fun probe other => ?_⟩
  · rw [tail.entries, head.entries, List.append_assoc]
  · rw [again, moved]
  · rw [tail.others probe (path ▸ other), head.others probe other]

private theorem append_ensures (index : Index) (offset position : Nat) (world : World) :
    (index.append offset position).Ensures world False fun reply after => reply.1 = .ok () →
      Took world index [⟨offset, position⟩] reply.2 after ∧
      (index.Filed world → reply.2.Filed after) := by
  apply Program.ensures_bind (index.file.writeAll_ensures _ world)
  rintro ⟨answer, moved⟩ after wrote
  cases answer with
  | error error => exact Program.ensures_of_run rfl nofun
  | ok done =>
    refine Program.ensures_of_run rfl fun _ => ⟨⟨rfl, wrote.handle, wrote.others⟩, fun filed => ?_⟩
    have handle := congrArg Index.file filed.shape
    have atEnd : index.file.AtEnd (encodeEntries index.entries) :=
      .inr (by rw [handle]; simp [holding])
    obtain ⟨-, written, behind⟩ := wrote.behind _ filed.file atEnd
    obtain ⟨cursor, shape⟩ := wrote.handle
    simp only at shape written behind
    have mode : moved.append = false := by rw [shape, handle]; rfl
    have place : moved.cursor = 16 * (index.entries.length + 1) := by
      rcases behind with impossible | place
      · rw [mode] at impossible
        cases impossible
      · rw [place, List.length_append, length_encodeEntries, IndexEntry.length_encode]
        omega
    constructor
    · cases moved
      simp only at mode place
      simp [holding, mode, place]
    · have same : moved.path = index.file.path := by rw [shape]
      simp only [same, written, encodeEntries_append, encodeEntries_cons, encodeEntries_nil,
        List.append_nil]

private theorem append_fails
    (fails : (index.append offset position).Fails site world (answer, result) after) :
    answer = .error (.io .fault) ∧ Took world index [] result after := by
  rcases fails.of_bind with ⟨⟨reply, moved⟩, between, first, ran⟩ | ⟨⟨reply, moved⟩,
    between, -, second⟩
  · obtain ⟨-, rfl, handle, others⟩ := File.fails_writeAll first
    cases ran
    exact ⟨rfl, (List.append_nil _).symm, handle, others⟩
  · cases reply <;> exact second.elim

end Index

namespace Segment
variable {world between after : World} {segment result : Segment} {index indexed : Index}

private theorem appendEntries_ensures (index : Index) (entries : List IndexEntry) (world : World) :
    (appendEntries index entries).Ensures world False fun reply after => reply.1 = .ok () →
      index.Took world entries reply.2 after ∧ (index.Filed world → reply.2.Filed after) := by
  induction entries generalizing index world with
  | nil =>
    exact Program.ensures_of_run rfl fun _ =>
      ⟨⟨(List.append_nil _).symm, ⟨_, rfl⟩, fun _ _ => rfl⟩, fun filed => filed⟩
  | cons entry rest ih =>
    apply Program.ensures_bind (index.append_ensures entry.offset entry.position world)
    rintro ⟨answer, middle⟩ between first
    cases answer with
    | error error => exact Program.ensures_of_run rfl nofun
    | ok done =>
      obtain ⟨took, filed⟩ := first rfl
      refine (ih middle between).mono (fun trap => trap) fun reply after second success => ?_
      obtain ⟨more, still⟩ := second success
      exact ⟨took.trans more, fun before => still (filed before)⟩

/-- A failing index write leaves the entries before it. -/
theorem appendEntries_fails
    (fails : (appendEntries index entries).Fails site world (answer, indexed) after) :
    answer = .error (.io .fault) ∧
    ∃ count, index.Took world (entries.take count) indexed after := by
  induction entries generalizing index world with
  | nil => exact fails.elim
  | cons entry rest ih =>
    rcases fails.of_bind with ⟨⟨reply, middle⟩, between, first, ran⟩ | ⟨⟨reply, middle⟩,
      between, first, second⟩
    · obtain ⟨rfl, took⟩ := Index.append_fails first
      cases ran
      exact ⟨rfl, 0, took⟩
    · cases reply with
      | error error => exact second.elim
      | ok done =>
        obtain ⟨took, -⟩ :=
          (index.append_ensures entry.offset entry.position world).of_run first rfl
        obtain ⟨failed, count, more⟩ := ih second
        exact ⟨failed, count + 1, took.trans more⟩

/-- The log has these bytes more and the index these entries; the counters have
not moved. -/
structure Stored (world : World) (segment : Segment) (data : Bytes) (entries : List IndexEntry)
    (after : World) (result : Segment) : Prop where
  shape : ∃ cursor place, result = { segment with
    logFile := { segment.logFile with cursor := cursor }
    index := ⟨{ segment.index.file with cursor := place }, segment.index.entries ++ entries⟩ }
  log : ∀ old, world.file? segment.logFile.path = some old → segment.logFile.AtEnd old →
    after.file? segment.logFile.path = some (old ++ data) ∧ result.logFile.AtEnd (old ++ data)

/-- The log first, then the index, which is another file. -/
private theorem Stored.of_parts (apart : segment.index.file.path ≠ segment.logFile.path)
    (wrote : File.Wrote world segment.logFile data (.ok ()) moved between)
    (took : segment.index.Took between entries indexed after) :
    Stored world segment data entries after
      { segment with logFile := moved, index := indexed } := by
  obtain ⟨cursor, rfl⟩ := wrote.handle
  obtain ⟨place, handle⟩ := took.handle
  refine ⟨⟨cursor, place, ?_⟩, fun old held atEnd => ?_⟩
  · rw [← took.entries, ← handle]
  · obtain ⟨-, written, behind⟩ := wrote.behind old held atEnd
    exact ⟨(took.others _ (Ne.symm apart)).trans written, behind⟩

private theorem store_ensures (apart : segment.index.file.path ≠ segment.logFile.path)
    (data : Bytes) (entries : List IndexEntry) (world : World) :
    (segment.store data entries).Ensures world False fun reply after => reply.1 = .ok () →
      Stored world segment data entries after reply.2 ∧
      (segment.index.Filed world → reply.2.index.Filed after) := by
  apply Program.ensures_bind (segment.logFile.writeAll_ensures data world)
  rintro ⟨answer, moved⟩ between wrote
  cases answer with
  | error error => exact Program.ensures_of_run rfl nofun
  | ok done =>
    apply Program.ensures_bind_of_run (run_syncLog _ _ _)
    apply Program.ensures_bind (appendEntries_ensures segment.index entries between)
    rintro ⟨answer, indexed⟩ later added
    cases answer with
    | error error => exact Program.ensures_of_run rfl nofun
    | ok done =>
      obtain ⟨took, still⟩ := added rfl
      refine Program.ensures_bind_of_run (run_syncIndex _ _ _)
        (Program.ensures_of_run rfl fun _ => ?_)
      exact ⟨.of_parts apart wrote took, fun filed =>
        still ⟨filed.shape, (wrote.others _ apart).trans filed.file⟩⟩

/-- The calls of an append behind the write to the log. -/
def AfterLog (segment : Segment) : Call → Prop
  | .syncData _ => True
  | .write path _ _ => path = segment.index.file.path
  | _ => False

/-- Such a call failed: the log has all its bytes, the index the entries that
were written before. -/
theorem store_fails (apart : segment.index.file.path ≠ segment.logFile.path)
    (fails : (segment.store data entries).Fails segment.AfterLog world (answer, result) after) :
    ∃ error count, answer = .error (.io error) ∧
    Stored world segment data (entries.take count) after result := by
  rcases fails.of_bind with ⟨⟨reply, moved⟩, between, first, -⟩ | ⟨⟨reply, moved⟩,
    between, first, rest⟩
  · obtain ⟨⟨position, same⟩, -⟩ := File.fails_writeAll first
    exact absurd same.symm apart
  have wrote := (segment.logFile.writeAll_ensures data world).of_run first
  cases reply with
  | error error => exact rest.elim
  | ok done =>
    rcases rest.of_bind with ⟨reply, middle, first, ran⟩ | ⟨reply, middle, first, rest⟩
    · unfold syncLog at first
      split at first
      · exact first.elim
      obtain ⟨rfl, rfl⟩ := File.fails_syncData first
      cases ran
      have untouched : segment.index.Took after (entries.take 0) segment.index after :=
        ⟨(List.append_nil _).symm, ⟨_, rfl⟩, fun _ _ => rfl⟩
      exact ⟨_, 0, rfl, .of_parts apart wrote untouched⟩
    cases (run_syncLog _ _ _).symm.trans first
    rcases rest.of_bind with ⟨⟨reply, indexed⟩, later, first, ran⟩ | ⟨⟨reply, indexed⟩,
      later, first, rest⟩
    · obtain ⟨rfl, count, took⟩ := appendEntries_fails first
      cases ran
      exact ⟨_, count, rfl, .of_parts apart wrote took⟩
    have added := (appendEntries_ensures segment.index entries between).of_run first
    cases reply with
    | error error => exact rest.elim
    | ok done =>
      obtain ⟨took, -⟩ := added rfl
      rcases rest.of_bind with ⟨reply, final, first, ran⟩ | ⟨reply, final, first, rest⟩
      · unfold syncIndex at first
        split at first
        · rcases first.of_bind with ⟨synced, last, first, done⟩ | ⟨synced, last, first, rest⟩
          · obtain ⟨rfl, rfl⟩ := File.fails_syncData first
            cases done
            cases ran
            refine ⟨_, entries.length, rfl, ?_⟩
            rw [List.take_length]
            exact .of_parts apart wrote took
          · cases synced <;> exact rest.elim
        · exact first.elim
      · cases reply <;> exact rest.elim

/-- What the loop of `append_batch` has gathered behind what it started from. -/
def Batch.gather (start : Batch) (stamp : UInt64) (taken : List Bytes) : Batch where
  buf := start.buf ++ encodeAll (numbered start.currentOffset (stamped stamp taken))
  indexEntries := start.indexEntries ++ positions start.physicalPosition
    (numbered start.currentOffset (stamped stamp taken))
  physicalPosition :=
    start.physicalPosition + (encodeAll (numbered start.currentOffset (stamped stamp taken))).length
  currentOffset := start.currentOffset + taken.length
  appendedCount := start.appendedCount + taken.length

/-- The loop takes the leading payloads, at least one of a batch it succeeds
with, and finds the segment full only before it has taken any. -/
theorem fill_takes (segment : Segment) (stamp : UInt64) (payloads : List Bytes) (start : Batch)
    (world : World) : (segment.fill stamp.toNat payloads start).Ensures world
      (2 ^ 64 ≤ start.physicalPosition + recordsLen payloads ∨
        2 ^ 64 ≤ start.currentOffset + payloads.length)
      fun answer after => after = world ∧
        (∀ batch, answer = .ok batch → ∃ taken,
          taken = leading segment.maxBytes start.physicalPosition payloads ∧
          batch = start.gather stamp taken ∧
            (taken ≠ [] → batch.currentOffset < 2 ^ 64) ∧
            (payloads ≠ [] → 0 < start.appendedCount + taken.length)) ∧
        ∀ current max, answer = .error (.segmentFull current max) →
          start.appendedCount = 0 ∧ 0 < start.physicalPosition := by
  induction payloads generalizing start with
  | nil =>
    refine Program.ensures_of_run rfl ⟨rfl, fun batch same => ?_, by rintro _ _ ⟨⟩⟩
    cases same
    refine ⟨[], rfl, ?_, fun nonempty => absurd rfl nonempty, fun nonempty => absurd rfl nonempty⟩
    simp [Batch.gather, stamped, numbered, positions]
  | cons payload rest ih =>
    unfold fill
    split
    · exact Program.ensures_of_run rfl ⟨rfl, by rintro batch ⟨⟩, by rintro _ _ ⟨⟩⟩
    rw [recordsLen_cons, List.length_cons]
    refine Program.ensures_bind_checked (fun past => .inl (by omega)) fun _ => ?_
    split
    · rename_i overfull
      have nothing : leading segment.maxBytes start.physicalPosition (payload :: rest) = [] :=
        if_neg (by omega)
      split
      · rename_i begun
        refine Program.ensures_of_run rfl ⟨rfl, fun batch same => ?_, by rintro _ _ ⟨⟩⟩
        cases same
        refine ⟨[], nothing.symm, ?_, fun nonempty => absurd rfl nonempty, fun _ => begun⟩
        simp [Batch.gather, stamped, numbered, positions]
      · refine Program.ensures_of_run rfl ⟨rfl, by rintro batch ⟨⟩, fun current max _ => ?_⟩
        constructor <;> omega
    · rename_i room
      have length : (Record.encode ⟨start.currentOffset, stamp.toNat, none, some payload⟩).length =
          28 + payload.length := by
        simp [recordLen, fieldLen]
      refine Program.ensures_bind_checked (fun past => .inl (by omega)) fun _ => ?_
      refine Program.ensures_bind_checked (fun past => .inr (by omega)) fun width => ?_
      refine (ih _).mono (fun beyond => ?_) ?_
      · dsimp only at beyond
        rw [length] at beyond
        omega
      rintro answer after ⟨rfl, filled, full⟩
      refine ⟨rfl, fun batch same => ?_, fun current max same => ?_⟩
      · obtain ⟨taken, most, rfl, offsets, -⟩ := filled batch same
        refine ⟨payload :: taken, ?_, ?_, fun _ => ?_, fun _ => by rw [List.length_cons]; omega⟩
        · rw [leading, if_pos (by omega), most, length]
        · simp only [Batch.gather, stamped, List.map_cons, numbered, positions, encodeAll_cons,
            List.append_assoc, List.cons_append, List.nil_append, List.length_append,
            List.length_cons, Message.record, Batch.mk.injEq, true_and]
          omega
        · rcases List.eq_nil_or_concat taken with rfl | ⟨_, _, rfl⟩
          · exact width
          · exact offsets (by simp)
      · exact absurd (full current max same).1 (Nat.succ_ne_zero _)

end Segment

/-- The calls that append to a segment. -/
inductive Addition where
  | append (key value : Option Bytes)
  | appendBatch (payloads : List Bytes)
  deriving DecidableEq

namespace Addition

/-- The keys and values of the first `count` records of a call. -/
def contents : Addition → Nat → List (Option Bytes × Option Bytes)
  | .append key value, _ => [(key, value)]
  | .appendBatch payloads, count => (payloads.take count).map fun payload => (none, some payload)

/-- How many records of a call a segment of `size` bytes takes. -/
def room (maxBytes size : Nat) : Addition → Nat
  | .append .. => 1
  | .appendBatch payloads => (Segment.leading maxBytes size payloads).length

end Addition

namespace Segment
variable {world between after : World} {segment middle result : Segment} {addition : Addition}

/-- One call; it answers with the offset of the first record and how many were
taken. -/
def add (self : Segment) : Addition → Program (Except RukaError (Nat × Nat) × Segment)
  | .append key value => do
    let (answer, self) ← self.append key value
    pure (answer.map fun offset => (offset, 1), self)
  | .appendBatch payloads => self.appendBatch payloads

/-- The segment has these messages more: in the log, in the index and in the
counters, each from where it stood. -/
structure Grows (world : World) (segment : Segment) (messages : List Message) (after : World)
    (result : Segment) : Prop where
  shape : ∃ cursor place, result = { segment with
    logFile := { segment.logFile with cursor := cursor }
    index := ⟨{ segment.index.file with cursor := place },
      segment.index.entries ++ positions segment.currentSize (numbered segment.nextOffset messages)⟩
    currentSize := segment.currentSize + (encodeAll (numbered segment.nextOffset messages)).length
    nextOffset := segment.nextOffset + messages.length }
  log : ∀ old, world.file? segment.logFile.path = some old → segment.logFile.AtEnd old →
    after.file? segment.logFile.path =
      some (old ++ encodeAll (numbered segment.nextOffset messages)) ∧
      result.logFile.AtEnd (old ++ encodeAll (numbered segment.nextOffset messages))
  indexed : segment.index.Filed world → result.index.Filed after
  widths : messages ≠ [] → result.nextOffset < 2 ^ 64 ∧ result.currentSize < 2 ^ 64

private theorem Grows.refl (segment : Segment) (same : after.file? = world.file?) :
    segment.Grows world [] after segment := by
  refine ⟨⟨segment.logFile.cursor, segment.index.file.cursor, ?_⟩, fun old held atEnd => ?_,
    fun filed => ⟨filed.shape, same ▸ filed.file⟩, fun nonempty => absurd rfl nonempty⟩
  · simp [numbered, positions]
  · simpa [numbered, same] using ⟨held, atEnd⟩

private theorem Grows.trans (first : segment.Grows world messages between middle)
    (second : middle.Grows between more after result) :
    segment.Grows world (messages ++ more) after result := by
  obtain ⟨cursor, place, rfl⟩ := first.shape
  obtain ⟨later, further, rfl⟩ := second.shape
  refine ⟨⟨later, further, ?_⟩, fun old held atEnd => ?_,
    fun filed => second.indexed (first.indexed filed), fun nonempty => ?_⟩
  · simp only [numbered_append, positions_append, encodeAll_append, List.length_append,
      List.append_assoc, Nat.add_assoc]
  · obtain ⟨written, behind⟩ := first.log old held atEnd
    have again := second.log _ written behind
    simpa only [numbered_append, encodeAll_append, List.append_assoc] using again
  · rcases List.eq_nil_or_concat more with rfl | ⟨_, _, rfl⟩
    · simpa [numbered] using first.widths (by simpa using nonempty)
    · exact second.widths (by simp)

private theorem Stored.of_tick (stored : Stored world.tick segment data entries after result) :
    Stored world segment data entries after result :=
  ⟨stored.shape, stored.log⟩

/-- Records stored, and then the counters moved by the same records. -/
theorem Stored.grows {messages : List Message}
    (stored : Stored world.tick segment (encodeAll (numbered segment.nextOffset messages))
      (positions segment.currentSize (numbered segment.nextOffset messages)) after result)
    (indexed : segment.index.Filed world.tick → result.index.Filed after)
    (offsets : messages ≠ [] → segment.nextOffset + messages.length < 2 ^ 64)
    (size :
      segment.currentSize + (encodeAll (numbered segment.nextOffset messages)).length < 2 ^ 64) :
    segment.Grows world messages after { result with
      currentSize := segment.currentSize + (encodeAll (numbered segment.nextOffset messages)).length
      nextOffset := segment.nextOffset + messages.length } := by
  obtain ⟨cursor, place, rfl⟩ := stored.shape
  exact ⟨⟨cursor, place, rfl⟩, stored.log, fun filed => indexed ⟨filed.shape, filed.file⟩,
    fun nonempty => ⟨offsets nonempty, size⟩⟩

private theorem append_grows (apart : segment.index.file.path ≠ segment.logFile.path)
    (key value : Option Bytes) (world : World) :
    (segment.append key value).Ensures world True fun reply after =>
      ∀ offset, reply.1 = .ok offset → offset = segment.nextOffset ∧
      ∃ stamp, segment.Grows world [⟨stamp, key, value⟩] after reply.2 := by
  have records : encodeAll (numbered segment.nextOffset [⟨world.stamp, key, value⟩]) =
      Record.encode ⟨segment.nextOffset, world.clock world.readings % 2 ^ 64, key, value⟩ := by
    simp [numbered, Message.record, world.toNat_stamp]
  unfold append
  split
  · exact Program.ensures_of_run rfl (by rintro offset ⟨⟩)
  refine Program.ensures_bind_checked (fun _ => trivial) fun _ => ?_
  split
  · exact Program.ensures_of_run rfl (by rintro offset ⟨⟩)
  apply Program.ensures_bind_of_run (run_now world)
  refine Program.ensures_bind ((store_ensures apart _ _ world.tick).mono False.elim
    fun _ _ stored => stored) ?_
  rintro ⟨answer, moved⟩ later stored
  cases answer with
  | error error => exact Program.ensures_of_run rfl (by rintro offset ⟨⟩)
  | ok done =>
    obtain ⟨stored, indexed⟩ := stored rfl
    simp only at stored indexed ⊢
    obtain ⟨cursor, place, shape⟩ := stored.shape
    have size : moved.currentSize = segment.currentSize := by rw [shape]
    have next : moved.nextOffset = segment.nextOffset := by rw [shape]
    refine Program.ensures_bind_checked (fun _ => trivial) fun sizes => ?_
    refine Program.ensures_bind_checked (fun _ => trivial) fun offsets =>
      Program.ensures_of_run rfl ?_
    rintro offset ⟨⟩
    rw [← records] at stored sizes ⊢
    rw [size] at sizes ⊢
    rw [next] at offsets ⊢
    exact ⟨rfl, world.stamp, stored.grows indexed (fun _ => offsets) sizes⟩

private theorem appendBatch_grows (apart : segment.index.file.path ≠ segment.logFile.path)
    (payloads : List Bytes) (world : World) :
    (segment.appendBatch payloads).Ensures world True fun reply after =>
      ∀ offset count, reply.1 = .ok (offset, count) → offset = segment.nextOffset ∧
      ∃ stamp, segment.Grows world (stamped stamp (payloads.take count)) after reply.2 := by
  have filling := fill_takes segment world.stamp payloads ⟨[], [], segment.currentSize,
    segment.nextOffset, 0⟩ world.tick
  rw [world.toNat_stamp] at filling
  unfold appendBatch
  split
  · apply Program.ensures_of_run rfl
    rintro offset count ⟨⟩
    exact ⟨rfl, world.stamp, .refl _ rfl⟩
  refine Program.ensures_bind_of_run (run_now world)
    (Program.ensures_bind (filling.mono (fun _ => trivial) fun _ _ filled => filled) ?_)
  rintro answer between ⟨rfl, filled, -⟩
  cases answer with
  | error error => exact Program.ensures_of_run rfl (by rintro offset count ⟨⟩)
  | ok batch =>
    obtain ⟨taken, most, rfl, offsets, -⟩ := filled batch rfl
    have part : payloads.take taken.length = taken := by rw [most, take_length_leading]
    simp only [Batch.gather, List.nil_append, Nat.zero_add] at offsets ⊢
    split
    · rename_i nothing
      apply Program.ensures_of_run rfl
      rintro offset count ⟨⟩
      have empty : taken = [] := by
        refine Decidable.byContradiction fun nonempty => ?_
        have positive : 0 < (encodeAll
            (numbered segment.nextOffset (stamped world.stamp taken))).length :=
          encodeAll_length_pos fun empty => nonempty (by simpa using congrArg List.length empty)
        rw [nothing] at positive
        exact Nat.lt_irrefl 0 positive
      rw [empty]
      exact ⟨rfl, world.stamp, .refl _ rfl⟩
    · refine Program.ensures_bind
        ((store_ensures apart _ _ world.tick).mono False.elim fun _ _ stored => stored) ?_
      rintro ⟨answer, moved⟩ later stored
      cases answer with
      | error error => exact Program.ensures_of_run rfl (by rintro offset count ⟨⟩)
      | ok done =>
        obtain ⟨stored, indexed⟩ := stored rfl
        simp only at stored indexed ⊢
        obtain ⟨cursor, place, shape⟩ := stored.shape
        have size : moved.currentSize = segment.currentSize := by rw [shape]
        refine Program.ensures_bind_checked (fun _ => trivial) fun sizes =>
          Program.ensures_of_run rfl ?_
        rintro offset count ⟨⟩
        refine ⟨rfl, world.stamp, ?_⟩
        rw [size] at sizes ⊢
        rw [part]
        have widths : stamped world.stamp taken ≠ [] →
            segment.nextOffset + (stamped world.stamp taken).length < 2 ^ 64 := fun nonempty => by
          rw [length_stamped]
          exact offsets fun empty => nonempty (by rw [empty]; rfl)
        have grown := stored.grows indexed widths sizes
        rwa [length_stamped] at grown

/-- A call that succeeds adds the records it acknowledges. -/
theorem add_grows (apart : segment.index.file.path ≠ segment.logFile.path)
    (ran : (segment.add addition).run world = (.ok (.ok (offset, count), result), after)) :
    offset = segment.nextOffset ∧
    ∃ messages, messages.map Message.content = addition.contents count ∧
      segment.Grows world messages after result := by
  cases addition with
  | append key value =>
    obtain ⟨⟨answer, moved⟩, between, inner, done⟩ := Program.exists_of_run_bind ran
    cases answer with
    | error error => cases done
    | ok place =>
      cases done
      obtain ⟨first, stamp, grows⟩ := (append_grows apart key value world).of_run inner offset rfl
      exact ⟨first, _, rfl, grows⟩
  | appendBatch payloads =>
    obtain ⟨first, stamp, grows⟩ :=
      (appendBatch_grows apart payloads world).of_run ran offset count rfl
    exact ⟨first, _, stamped_content stamp _, grows⟩

private theorem fill_not_fails (payloads : List Bytes) (start : Batch) :
    ¬ (segment.fill stamp payloads start).Fails site world answer after := by
  induction payloads generalizing start with
  | nil => exact fun fails => fails
  | cons payload rest ih =>
    intro fails
    unfold fill at fails
    split at fails
    · exact fails
    replace fails := fails.of_bind_checked.2
    split at fails
    · split at fails <;> exact fails
    · exact ih _ fails.of_bind_checked.2.of_bind_checked.2

/-- A call that fails behind its write to the log leaves all its records there,
and none or some of them in the index. -/
theorem add_fails (apart : segment.index.file.path ≠ segment.logFile.path)
    (fails : (segment.add addition).Fails segment.AfterLog world (.error error, result) after) :
    ∃ messages count,
      messages.map Message.content =
        addition.contents (addition.room segment.maxBytes segment.currentSize) ∧
      Stored world segment (encodeAll (numbered segment.nextOffset messages))
        ((positions segment.currentSize (numbered segment.nextOffset messages)).take count)
          after result := by
  cases addition with
  | append key value =>
    rcases fails.of_bind with ⟨⟨answer, moved⟩, between, inner, done⟩ | ⟨⟨answer, moved⟩,
      between, -, done⟩
    · unfold append at inner
      split at inner
      · exact inner.elim
      replace inner := inner.of_bind_checked.2
      split at inner
      · exact inner.elim
      rcases inner.of_bind_now.of_bind with
        ⟨⟨reply, stored⟩, middle, first, rest⟩ | ⟨⟨reply, stored⟩, middle, first, rest⟩
      · obtain ⟨reason, count, rfl, kept⟩ := store_fails apart first
        cases rest
        cases done
        refine ⟨[⟨world.stamp, key, value⟩], count, rfl, .of_tick ?_⟩
        simpa [numbered, positions, Message.record, world.toNat_stamp] using kept
      · cases reply with
        | error error => exact rest.elim
        | ok done => exact rest.of_bind_checked.2.of_bind_checked.2.elim
    · exact done.elim
  | appendBatch payloads =>
    have filling := fill_takes segment world.stamp payloads ⟨[], [], segment.currentSize,
      segment.nextOffset, 0⟩ world.tick
    rw [world.toNat_stamp] at filling
    change (segment.appendBatch payloads).Fails _ _ _ _ at fails
    unfold appendBatch at fails
    split at fails
    · exact fails.elim
    rcases fails.of_bind_now.of_bind with ⟨answer, between, inner, -⟩ | ⟨answer,
      between, inner, rest⟩
    · exact absurd inner (fill_not_fails _ _)
    obtain ⟨rfl, filled, -⟩ := filling.of_run inner
    cases answer with
    | error error => exact rest.elim
    | ok batch =>
      obtain ⟨taken, most, rfl, -⟩ := filled batch rfl
      simp only [Batch.gather, List.nil_append, Nat.zero_add] at rest
      split at rest
      · exact rest.elim
      rcases rest.of_bind with ⟨⟨reply, stored⟩, middle, first, done⟩ | ⟨⟨reply, stored⟩,
        middle, first, done⟩
      · obtain ⟨reason, count, rfl, kept⟩ := store_fails apart first
        cases done
        refine ⟨stamped world.stamp taken, count, ?_, .of_tick kept⟩
        rw [stamped_content, Addition.contents, Addition.room, take_length_leading, most]
      · cases reply with
        | error error => exact done.elim
        | ok stored => exact done.of_bind_checked.2.elim

end Segment

/-- Calls that all succeeded, with the keys, values and offsets they
acknowledged. -/
inductive Segment.Adds (world : World) (segment : Segment) :
    List ((Option Bytes × Option Bytes) × Nat) → World → Segment → Prop
  | none : Adds world segment [] world segment
  | more (before : Adds world segment receipts between middle)
      (ran : (middle.add addition).run between = (.ok (.ok (offset, count), result), after)) :
      Adds world segment (receipts ++ (addition.contents count).zipIdx offset) after result

namespace Segment
variable {world after : World} {segment result : Segment} {dir : Path} {baseOffset maxBytes : Nat}
  {syncLevel : SyncLevel}

/-- A run of such calls grows the segment by all their records. -/
theorem Adds.grows (adds : segment.Adds world receipts after result)
    (apart : segment.index.file.path ≠ segment.logFile.path) :
    ∃ messages, receipts = (messages.map Message.content).zipIdx segment.nextOffset ∧
      segment.Grows world messages after result := by
  induction adds with
  | none => exact ⟨[], rfl, .refl _ rfl⟩
  | more before ran ih =>
    obtain ⟨messages, same, grows⟩ := ih
    obtain ⟨cursor, place, shape⟩ := grows.shape
    obtain ⟨first, more, contents, further⟩ := add_grows (by rw [shape]; exact apart) ran
    refine ⟨messages ++ more, ?_, grows.trans further⟩
    rw [List.map_append, List.zipIdx_append, same, contents, first, shape, List.length_map]

/-- A segment made where there was no log yet, after calls that succeeded. -/
def Written (dir : Path) (baseOffset maxBytes : Nat) (syncLevel : SyncLevel)
    (receipts : List ((Option Bytes × Option Bytes) × Nat)) (world : World)
    (segment : Segment) : Prop :=
  ∃ start created before, start.node (logPath dir baseOffset) = none ∧
    (create dir baseOffset maxBytes syncLevel).run start = (.ok (.ok created), before) ∧
    created.Adds before receipts world segment

/-- Creating a segment leaves an empty log and an empty index. -/
theorem create_ok (free : world.node (logPath dir baseOffset) = none)
    (ran : (create dir baseOffset maxBytes syncLevel).run world = (.ok (.ok segment), after)) :
    segment = (Tile.fresh baseOffset).segment dir maxBytes syncLevel ∧
    (Tile.fresh baseOffset).OnDisk after dir := by
  obtain ⟨made, first, making, rest⟩ := Program.exists_of_run_bind ran
  cases made with
  | error error => cases rest
  | ok made =>
  have stillFree : first.file? (logPath dir baseOffset) = none := by
    change (Except.ok (perform (.createDirAll dir) world).1,
      (perform (.createDirAll dir) world).2) = _ at making
    simp only [perform] at making
    split at making
    · cases making
    · cases making
      have outside : ¬ (logPath dir baseOffset ≠ [] ∧ logPath dir baseOffset <+: dir) := by
        rintro ⟨-, above⟩
        have longer := above.length_le
        simp [logPath] at longer
      simp only [World.file?, World.putDirectories, if_neg outside, free]
  obtain ⟨opened, second, opening, rest⟩ := Program.exists_of_run_bind rest
  cases opened with
  | error error => cases rest
  | ok logFile =>
  obtain ⟨rfl, log⟩ := File.openWith_ok opening
  simp only [stillFree] at log
  obtain ⟨indexed, third, indexing, done⟩ := Program.exists_of_run_bind rest
  cases indexed with
  | error error => cases done
  | ok index =>
  cases done
  obtain ⟨opened, fourth, creating, done⟩ := Program.exists_of_run_bind indexing
  cases opened with
  | error error => cases done
  | ok file =>
  cases done
  obtain ⟨rfl, shape⟩ := File.openWith_ok creating
  have emptied : after = second.put (indexPath dir baseOffset) [] := by
    split at shape <;> exact shape
  refine ⟨rfl, ?_, ?_⟩
  · rw [emptied, log]
    exact (World.file?_put_ne _ _ (logPath_ne_indexPath dir _ _)).trans (World.file?_put _ _ _)
  · rw [emptied]
    exact World.file?_put _ _ _

/-- Such a segment is the tile of its messages. -/
theorem Written.tile (written : Written dir baseOffset maxBytes syncLevel receipts world segment) :
    ∃ messages cursor,
      segment = (⟨baseOffset, messages, true, cursor⟩ : Tile).segment dir maxBytes syncLevel ∧
      (⟨baseOffset, messages, true, cursor⟩ : Tile).OnDisk world dir ∧
      receipts = (messages.map Message.content).zipIdx baseOffset ∧
      (messages ≠ [] → segment.nextOffset < 2 ^ 64 ∧ segment.currentSize < 2 ^ 64) := by
  obtain ⟨start, created, before, free, ran, adds⟩ := written
  obtain ⟨rfl, disk⟩ := create_ok free ran
  obtain ⟨messages, same, grows⟩ := adds.grows (Ne.symm (logPath_ne_indexPath dir _ _))
  obtain ⟨cursor, place, shape⟩ := grows.shape
  have filed := grows.indexed ⟨rfl, disk.index⟩
  obtain ⟨log, -⟩ := grows.log _ disk.log (.inl rfl)
  have index : segment.index =
      Index.holding (indexPath dir baseOffset) (positions 0 (numbered baseOffset messages)) := by
    rw [filed.shape, shape]
    rfl
  refine ⟨messages, cursor, ?_, ⟨log, ?_⟩, same, grows.widths⟩
  · rw [shape] at index ⊢
    simp only at index ⊢
    rw [index]
    simp [Tile.segment, Tile.fresh, Tile.bytes, Tile.records, Tile.entries,
      Tile.nextOffset, numbered]
  · have file := filed.file
    rw [index] at file
    exact file

end Segment

end Ruka
