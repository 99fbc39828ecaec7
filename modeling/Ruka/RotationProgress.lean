import Ruka.PartitionStorage
import Ruka.SegmentAdditions

/-! Why the loop of `append_batch` ends. A round may take no payload at all,
when the active segment is full; but then it rotates, and a segment just opened
takes every record the size check lets through. Nothing is assumed about the
files, so this also covers a segment that is larger than the limit. -/
namespace Ruka
open BigEndian LexicalPaths FilePrograms

/-- The answer is not the one that only a partition should see. -/
def NotFull (answer : Except RukaError α) : Prop :=
  ∀ current max, answer ≠ .error (.segmentFull current max)

private theorem notFull_ok (value : α) : NotFull (.ok value) := by
  rintro _ _ ⟨⟩

private theorem notFull_io (error : IoError) :
    NotFull (.error (.io error) : Except RukaError α) := by
  rintro _ _ ⟨⟩

private theorem NotFull.of_error (notFull : NotFull (.error error : Except RukaError α)) :
    NotFull (.error error : Except RukaError β) := by
  rintro current max ⟨⟩
  exact notFull current max rfl

/-! ## Programs that return whatever their calls answer -/

namespace Index

theorem append_returns (index : Index) (offset position : Nat) :
    (index.append offset position).Returns fun reply => NotFull reply.1 := by
  apply Program.Returns.after_call
  rintro ⟨answer, file⟩
  cases answer with
  | error error => exact notFull_io error
  | ok done => exact notFull_ok done

theorem create_returns (path : Path) : (create path).Returns NotFull := by
  apply Program.Returns.after_call
  intro answer
  cases answer with
  | error error => exact notFull_io error
  | ok file => exact notFull_ok _

end Index

namespace Segment

private theorem appendEntries_returns (index : Index) (entries : List IndexEntry) :
    (appendEntries index entries).Returns fun reply => NotFull reply.1 := by
  induction entries generalizing index with
  | nil => exact notFull_ok ()
  | cons entry rest ih =>
    apply (index.append_returns entry.offset entry.position).bind
    rintro ⟨answer, index⟩ notFull
    cases answer with
    | error error => exact notFull
    | ok done => exact ih index

private theorem syncLog_returns (level : SyncLevel) (logFile : File) :
    (syncLog level logFile).Returns fun _ => True := by
  unfold syncLog
  split
  · exact trivial
  · exact fun _ => trivial

private theorem syncIndex_returns (level : SyncLevel) (index : Index) :
    (syncIndex level index).Returns NotFull := by
  unfold syncIndex
  split
  · apply Program.Returns.after_call
    intro answer
    cases answer with
    | error error => exact notFull_io error
    | ok done => exact notFull_ok done
  · exact notFull_ok ()

/-- Writing the files moves handles and the index, not the counters. -/
theorem store_returns (segment : Segment) (data : Bytes) (entries : List IndexEntry) :
    (segment.store data entries).Returns fun reply => NotFull reply.1 ∧
      ∃ logFile index, reply.2 = { segment with logFile := logFile, index := index } := by
  apply Program.Returns.after_call
  rintro ⟨answer, logFile⟩
  cases answer with
  | error error => exact ⟨notFull_io error, logFile, segment.index, rfl⟩
  | ok done =>
    apply (syncLog_returns _ _).bind
    rintro answer -
    cases answer with
    | error error => exact ⟨notFull_io error, logFile, segment.index, rfl⟩
    | ok done =>
      apply (appendEntries_returns segment.index entries).bind
      rintro ⟨answer, index⟩ notFull
      cases answer with
      | error error => exact ⟨notFull, logFile, index, rfl⟩
      | ok done =>
        apply (syncIndex_returns _ _).bind
        intro answer notFull
        cases answer with
        | error error => exact ⟨notFull, logFile, index, rfl⟩
        | ok done => exact ⟨notFull_ok (), logFile, index, rfl⟩

/-- A segment just created is empty. -/
theorem create_returns (dir : Path) (baseOffset maxBytes : Nat) (syncLevel : SyncLevel) :
    (create dir baseOffset maxBytes syncLevel).Returns fun answer => NotFull answer ∧
      ∀ segment, answer = .ok segment → segment.currentSize = 0 ∧
      segment.nextOffset = baseOffset := by
  apply Program.Returns.after_call
  intro answer
  cases answer with
  | error error => exact ⟨notFull_io error, by rintro _ ⟨⟩⟩
  | ok done =>
    apply Program.Returns.after_call
    intro answer
    cases answer with
    | error error => exact ⟨notFull_io error, by rintro _ ⟨⟩⟩
    | ok logFile =>
      apply (Index.create_returns _).bind
      intro answer notFull
      cases answer with
      | error error => exact ⟨notFull.of_error, by rintro _ ⟨⟩⟩
      | ok index =>
        refine ⟨notFull_ok _, ?_⟩
        rintro segment ⟨⟩
        exact ⟨rfl, rfl⟩

private theorem recordsLen_drop_le (count : Nat) (payloads : List Bytes) :
    recordsLen (payloads.drop count) ≤ recordsLen payloads := by
  have parts := congrArg recordsLen (List.take_append_drop count payloads)
  rw [recordsLen, List.map_append, List.sum_append] at parts
  exact parts ▸ Nat.le_add_left _ _

/-! ## One round -/

/-- These records take a counter of the segment past 64 bits. -/
def RunsOver (segment : Segment) (bytes count : Nat) : Prop :=
  2 ^ 64 ≤ segment.currentSize + bytes ∨ 2 ^ 64 ≤ segment.nextOffset + count

/-- An empty segment is never full. -/
theorem append_rounds (segment : Segment) (key value : Option Bytes) (world : World) :
    (segment.append key value).Ensures world
      (segment.RunsOver (recordLen key value) 1) fun reply _ =>
      ∀ current max, reply.1 = .error (.segmentFull current max) →
        0 < segment.currentSize ∧ reply.2.nextOffset = segment.nextOffset := by
  unfold append
  split
  · exact Program.ensures_of_run rfl (by rintro _ _ ⟨⟩)
  refine Program.ensures_bind_checked Or.inl fun _ => ?_
  split
  · rename_i full
    exact Program.ensures_of_run rfl fun _ _ _ => ⟨full.2, rfl⟩
  apply Program.ensures_bind_of_run (run_now world)
  apply Program.ensures_bind ((store_returns segment _ _).ensures _)
  rintro ⟨answer, moved⟩ after ⟨notFull, logFile, index, rfl⟩
  cases answer with
  | error error =>
    exact Program.ensures_of_run rfl fun current max same =>
      absurd same (notFull.of_error current max)
  | ok done =>
    refine Program.ensures_bind_checked (fun past => .inl ?_) fun _ => ?_
    · rwa [Record.length_encode] at past
    refine Program.ensures_bind_checked Or.inr fun _ => ?_
    exact Program.ensures_of_run rfl (by rintro _ _ ⟨⟩)

/-- What a round of `Partition::append_batch` does to the active segment: it
takes payloads, or the segment was not empty. -/
structure Round (segment : Segment) (payloads : List Bytes) (answer : Except RukaError (Nat × Nat))
    (result : Segment) : Prop where
  takes : ∀ offset count, answer = .ok (offset, count) →
    0 < count ∧ count ≤ payloads.length ∧ result.nextOffset = segment.nextOffset + count
  full : ∀ current max, answer = .error (.segmentFull current max) →
    0 < segment.currentSize ∧ result.nextOffset = segment.nextOffset

private theorem appendBatch_rounds (segment : Segment) (payloads : List Bytes)
    (nonempty : payloads ≠ []) (world : World) :
    (segment.appendBatch payloads).Ensures world
      (segment.RunsOver (recordsLen payloads) payloads.length) fun reply _ =>
        segment.Round payloads reply.1 reply.2 := by
  have filling := fill_takes segment world.stamp payloads ⟨[], [], segment.currentSize,
    segment.nextOffset, 0⟩ world.tick
  rw [world.toNat_stamp] at filling
  unfold appendBatch
  rw [if_neg nonempty]
  refine Program.ensures_bind_of_run (run_now world) (Program.ensures_bind filling ?_)
  rintro answer _ ⟨rfl, filled, full⟩
  cases answer with
  | error error =>
    refine Program.ensures_of_run rfl ⟨by rintro _ _ ⟨⟩, fun current max same => ?_⟩
    have held := full current max (by cases same; rfl)
    exact ⟨held.2, rfl⟩
  | ok batch =>
    obtain ⟨taken, most, rfl, -, progress⟩ := filled batch rfl
    have positive : 0 < taken.length := by simpa using progress nonempty
    have part := congrArg List.length
      (take_length_leading segment.maxBytes segment.currentSize payloads)
    rw [← most, List.length_take] at part
    have writes : (Batch.gather ⟨[], [], segment.currentSize, segment.nextOffset, 0⟩ world.stamp
        taken).buf ≠ [] := by
      apply List.ne_nil_of_length_pos
      simp only [Batch.gather, List.nil_append]
      apply encodeAll_length_pos
      intro empty
      have length := congrArg List.length empty
      rw [length_numbered, length_stamped, List.length_nil] at length
      omega
    dsimp only
    rw [if_neg writes]
    apply Program.ensures_bind ((store_returns segment _ _).ensures _)
    rintro ⟨answer, moved⟩ after ⟨notFull, logFile, index, rfl⟩
    cases answer with
    | error error =>
      exact Program.ensures_of_run rfl
        ⟨by rintro _ _ ⟨⟩, fun current max same => absurd same (notFull.of_error current max)⟩
    | ok done =>
      refine Program.ensures_bind_checked (fun past => .inl ?_) fun _ => ?_
      · have less := recordsLen_leading_le segment.maxBytes segment.currentSize payloads
        rw [← most] at less
        simp only [Batch.gather, List.nil_append, length_encodeAll_stamped] at past
        omega
      · refine Program.ensures_of_run rfl ⟨?_, by rintro _ _ ⟨⟩⟩
        rintro offset count ⟨⟩
        simp only [Batch.gather, Nat.zero_add]
        exact ⟨positive, by omega, trivial⟩

end Segment

namespace Partition
variable {partition : Partition} {active : Segment}

private theorem length_setActive (last : partition.segments.getLast? = some active)
    (segment : Segment) :
    (partition.setActive segment).segments.length = partition.segments.length := by
  have nonempty : partition.segments ≠ [] := by
    rintro empty
    rw [empty] at last
    cases last
  have positive := List.length_pos_iff.mpr nonempty
  rw [setActive, List.length_append, List.length_dropLast, List.length_singleton]
  omega

/-- A rotation adds one segment, an empty one that goes on where the last one ended. -/
theorem rotate_returns (partition : Partition) (active : Segment) :
    (partition.rotate active).Returns fun reply => NotFull reply.1 ∧
      (reply.1 ≠ .ok () → reply.2 = partition) ∧
      (reply.1 = .ok () → ∃ segment,
        reply.2 = { partition with segments := partition.segments ++ [segment] } ∧
        segment.currentSize = 0 ∧ segment.nextOffset = active.nextOffset) := by
  unfold rotate Segment.flush
  apply (Segment.create_returns _ _ _ _).bind
  rintro answer ⟨notFull, empty⟩
  cases answer with
  | error error => exact ⟨notFull.of_error, fun _ => rfl, by rintro ⟨⟩⟩
  | ok segment =>
    exact ⟨notFull_ok (), fun failed => absurd rfl failed,
      fun _ => ⟨segment, rfl, empty segment rfl⟩⟩

/-- How a call that may rotate ends: not with a full segment, and with at most
`count` new ones. -/
structure Settled (partition : Partition) (count : Nat) (answer : Except RukaError Nat)
    (result : Partition) : Prop where
  notFull : NotFull answer
  segments : result.segments.length ≤ partition.segments.length + count

/-- The partition with one more segment, which is then the active one. -/
theorem getLast?_snoc (partition : Partition) (segment : Segment) :
    ({ partition with segments := partition.segments ++ [segment] } : Partition).segments.getLast? =
      some segment :=
  List.getLast?_concat

/-- What follows a rotation settles if it does so behind the new segment; a
rotation that failed has added none. -/
theorem rotate_settles {self : Partition}
    {next : Except RukaError Unit × Partition → Program (Except RukaError Nat × Partition)}
    (kept : self.segments.length ≤ partition.segments.length + count)
    (failed : ∀ error, next (.error error, self) = pure (.error error, self))
    (goesOn : ∀ fresh between, fresh.currentSize = 0 → fresh.nextOffset = active.nextOffset →
      (next (.ok (), { self with segments := self.segments ++ [fresh] })).Ensures between
        trap fun reply _ =>
        partition.Settled count reply.1 reply.2) (world : World) :
    (self.rotate active >>= next).Ensures world trap fun reply _ =>
      partition.Settled count reply.1 reply.2 := by
  apply Program.ensures_bind ((rotate_returns self active).ensures _)
  rintro ⟨answer, rotated⟩ between ⟨notFull, unchanged, added⟩
  cases answer with
  | error error =>
    obtain rfl : rotated = self := unchanged (by rintro ⟨⟩)
    rw [failed error]
    exact Program.ensures_of_run rfl ⟨notFull.of_error, kept⟩
  | ok done =>
    obtain ⟨fresh, rfl, empty, start⟩ := added rfl
    exact goesOn fresh between empty start

/-- A single append rotates once at most: the new segment is empty. -/
theorem append_settles (last : partition.segments.getLast? = some active) (key value : Option Bytes)
    (world : World) :
    (partition.append key value).Ensures world
      (active.RunsOver (recordLen key value) 1) fun reply _ =>
      partition.Settled 1 reply.1 reply.2 := by
  apply Program.ensures_bind (ensures_onActive last (·.append key value)
    (active.append_rounds key value world))
  rintro _ after ⟨answer, segment, rfl, full⟩
  have same := length_setActive last segment
  have kept : (partition.setActive segment).segments.length ≤
      partition.segments.length + 1 := by omega
  cases answer with
  | ok offset => exact Program.ensures_of_run rfl ⟨notFull_ok offset, kept⟩
  | error error =>
    cases error with
    | segmentFull current max =>
      have next : segment.nextOffset = active.nextOffset := (full current max rfl).2
      refine rotate_settles kept (fun _ => rfl) (fun fresh between empty start => ?_) after
      have newest := getLast?_snoc (partition.setActive segment) fresh
      have second := ensures_onActive newest (·.append key value)
        (fresh.append_rounds key value between)
      refine Program.ensures_bind (second.mono (fun beyond => ?_) fun _ _ met => met) ?_
      · unfold Segment.RunsOver at beyond ⊢
        omega
      rintro _ _ ⟨answer, appended, rfl, stillFull⟩
      refine Program.ensures_of_run rfl ⟨fun current max refused => ?_, ?_⟩
      · have positive := (stillFull current max refused).1
        omega
      · rw [length_setActive newest, List.length_append, List.length_singleton, same]
    | _ => exact Program.ensures_of_run rfl ⟨by rintro _ _ ⟨⟩, kept⟩

/-- The rounds the loop needs for these payloads: one for each, and one more if
the active segment is not empty. -/
def rounds (active : Segment) (payloads : List Bytes) : Nat :=
  if payloads = [] then 0 else payloads.length + (if active.currentSize = 0 then 0 else 1)

private theorem rounds_fresh (empty : active.currentSize = 0) (payloads : List Bytes) :
    rounds active payloads = payloads.length := by
  unfold rounds
  split
  · rename_i nothing
    rw [nothing]
    rfl
  · exact Nat.add_zero _

theorem rounds_le (active : Segment) (payloads : List Bytes) :
    rounds active payloads ≤ 2 * payloads.length ∧
    rounds active payloads - 1 ≤ payloads.length := by
  unfold rounds
  split
  · omega
  · rename_i nonempty
    have positive := List.length_pos_iff.mpr nonempty
    split <;> omega

/-- The loop ends within its rounds, and every round but the last adds at most
one segment. -/
theorem appendPayloads_settles (fuel : Nat) (last : partition.segments.getLast? = some active)
    (payloads : List Bytes) (baseOffset : Option Nat) (enough : rounds active payloads < fuel)
    (world : World) : (appendPayloads fuel partition payloads baseOffset).Ensures world
      (active.RunsOver (Segment.recordsLen payloads) payloads.length) fun reply _ =>
        partition.Settled (rounds active payloads - 1) reply.1 reply.2 := by
  induction fuel generalizing partition active payloads baseOffset world with
  | zero => omega
  | succ fuel ih =>
    unfold appendPayloads
    split
    · exact Program.ensures_of_run rfl ⟨notFull_ok _, Nat.le_add_right _ _⟩
    rename_i nonempty
    have positive := List.length_pos_iff.mpr nonempty
    have needed : rounds active payloads =
        payloads.length + (if active.currentSize = 0 then 0 else 1) := if_neg nonempty
    refine Program.ensures_bind
      (ensures_onActive last (·.appendBatch payloads)
        (active.appendBatch_rounds payloads nonempty world)) ?_
    rintro _ after ⟨answer, segment, rfl, round⟩
    change active.Round payloads answer segment at round
    have same := length_setActive last segment
    have kept : (partition.setActive segment).segments.length ≤
        partition.segments.length + (rounds active payloads - 1) := by omega
    -- behind a new segment the payloads that are left need one round each
    have goesOn (left : List Bytes) (leftSome : left ≠ []) (base : Option Nat)
        (fewer : left.length ≤ rounds active payloads - 1) (fresh : Segment) (between : World)
        (empty : fresh.currentSize = 0)
        (beyond : fresh.RunsOver (Segment.recordsLen left) left.length →
          active.RunsOver (Segment.recordsLen payloads) payloads.length) :
        (appendPayloads fuel { partition.setActive segment with
          segments := (partition.setActive segment).segments ++ [fresh] } left base).Ensures between
            (active.RunsOver (Segment.recordsLen payloads) payloads.length) fun reply _ =>
              partition.Settled (rounds active payloads - 1) reply.1 reply.2 := by
      have leftPositive := List.length_pos_iff.mpr leftSome
      have few := rounds_fresh empty left
      refine (ih (getLast?_snoc _ fresh) left base (by omega) between).mono beyond ?_
      rintro ⟨answer, result⟩ _ ⟨notFull, segments⟩
      refine ⟨notFull, ?_⟩
      rw [few, List.length_append, List.length_singleton, same] at segments
      omega
    cases answer with
    | ok reply =>
      obtain ⟨offset, count⟩ := reply
      obtain ⟨taken, within, next⟩ := round.takes offset count rfl
      dsimp only
      split
      · rename_i nothing
        obtain ⟨less, rfl⟩ : ∃ less, fuel = less + 1 := ⟨fuel - 1, by omega⟩
        rw [nothing]
        exact Program.ensures_of_run rfl ⟨notFull_ok _, kept⟩
      · rename_i more
        have shorter := List.length_drop (i := count) (l := payloads)
        refine rotate_settles kept (fun _ => rfl) (fun fresh between empty start => ?_) after
        refine goesOn (payloads.drop count) more _ (by omega) fresh between empty fun beyond => ?_
        have less := Segment.recordsLen_drop_le count payloads
        unfold Segment.RunsOver at beyond ⊢
        omega
    | error error =>
      cases error with
      | segmentFull current max =>
        obtain ⟨held, next⟩ := round.full current max rfl
        have fewer : payloads.length ≤ rounds active payloads - 1 := by
          rw [needed, if_neg (by omega)]
          omega
        refine rotate_settles kept (fun _ => rfl) (fun fresh between empty start => ?_) after
        refine goesOn payloads nonempty baseOffset fewer fresh between empty fun beyond => ?_
        unfold Segment.RunsOver at beyond ⊢
        omega
      | _ => exact Program.ensures_of_run rfl ⟨by rintro _ _ ⟨⟩, kept⟩

/-- A call returns, not with a full segment and with at most `count` new
segments, or a counter runs over and it panics; it never goes on for ever. -/
def ReturnsSettled (program : Program (Except RukaError Nat × Partition)) (world : World)
    (partition : Partition) (count : Nat) (beyond : Prop) : Prop :=
  (∃ answer result after, program.run world = (.ok (answer, result), after) ∧
    partition.Settled count answer result) ∨
    ((∃ after, program.run world = (.error .panic, after)) ∧ beyond)

private theorem returnsSettled {program : Program (Except RukaError Nat × Partition)}
    (settles : program.Ensures world trap fun reply _ => partition.Settled few reply.1 reply.2)
    (bound : few ≤ count) (wider : trap → beyond) :
    ReturnsSettled program world partition count beyond := by
  rcases settles.returns_or_panics with ⟨⟨answer, result⟩, after, ran,
    settled⟩ | ⟨panicked, trapped⟩
  · have segments := settled.segments
    refine .inl ⟨answer, result, after, ran, settled.notFull, ?_⟩
    dsimp only at segments
    omega
  · exact .inr ⟨panicked, wider trapped⟩

/-- Both calls settle on every partition with a segment, whatever is on disk and
however large the active segment is. Only payloads of `2 ^ 63` bytes together, or
offsets past 64 bits, stop the process instead. -/
theorem rotation_settles (world : World) (partition : Partition) (active : Segment)
    (last : partition.segments.getLast? = some active) (size : active.currentSize < 2 ^ 63) :
    (∀ payloads, ReturnsSettled (partition.appendBatch payloads) world partition payloads.length
      (2 ^ 63 < Segment.recordsLen payloads ∨ 2 ^ 64 ≤ active.nextOffset + payloads.length)) ∧
    ∀ key value, ReturnsSettled (partition.append key value) world partition 1
      (2 ^ 63 < recordLen key value ∨ 2 ^ 64 ≤ active.nextOffset + 1) := by
  constructor
  · intro payloads
    obtain ⟨enough, few⟩ := rounds_le active payloads
    apply returnsSettled (appendPayloads_settles _ last payloads none (by omega) world) few
    unfold Segment.RunsOver
    omega
  · intro key value
    apply returnsSettled (append_settles last key value world) (Nat.le_refl 1)
    unfold Segment.RunsOver
    omega

/-- A partition opened with a limit of 40 bytes whose segment has 100. -/
def shrunk : Partition :=
  ⟨"t", 0, [], [⟨0, ⟨logPath [] 0, false, 100⟩, ⟨⟨indexPath [] 0, false, 48⟩, []⟩, 100, 3, 40,
    .none⟩], 40, .none⟩

/-- Two payloads that each need a segment of their own: two new segments. -/
theorem rotation_settles_shrunk :
    ∃ answer result after,
      (shrunk.appendBatch [[1], [2]]).run blankWorld = (.ok (answer, result), after) ∧
      NotFull answer ∧ result.segments.length ≤ 1 + 2 := by
  obtain ⟨batches, -⟩ :=
    rotation_settles blankWorld shrunk _ (show shrunk.segments.getLast? = some _ from
      rfl) (by decide)
  rcases batches [[1], [2]] with ⟨answer, result, after, ran, settled⟩ | ⟨-, beyond⟩
  · exact ⟨answer, result, after, ran, settled.notFull, settled.segments⟩
  · exact absurd beyond (by decide)

end Partition

end Ruka
