import Ruka.PartitionSessions

/-! Single appends and batches lay out the log alike. Both put each record
behind the last one while it fits and start a new segment otherwise; the fold of
that over the payloads is what every grouping of them arrives at. -/
namespace Ruka
open BigEndian LexicalPaths FilePrograms

/-- One more message: into the last tile where it fits, into a new one otherwise. -/
def packOne (maxBytes : Nat) (tiles : List Tile) (message : Message) : List Tile :=
  match tiles.getLast? with
  | none => []
  | some last =>
    if last.bytes.length + message.size ≤ maxBytes then tiles.dropLast ++ [last.extend [message]]
    else tiles ++ [(Tile.fresh last.nextOffset).extend [message]]

/-- Message after message. -/
def pack (maxBytes : Nat) (tiles : List Tile) (messages : List Message) : List Tile :=
  messages.foldl (packOne maxBytes) tiles

private theorem packOne_of_fits (front : List Tile) {last : Tile}
    (fits : last.bytes.length + message.size ≤ maxBytes) :
    packOne maxBytes (front ++ [last]) message = front ++ [last.extend [message]] := by
  rw [packOne, List.getLast?_concat]
  dsimp only
  rw [if_pos fits, List.dropLast_concat]

private theorem packOne_of_full (front : List Tile) {last : Tile}
    (full : maxBytes < last.bytes.length + message.size) :
    packOne maxBytes (front ++ [last]) message =
      front ++ [last] ++ [(Tile.fresh last.nextOffset).extend [message]] := by
  rw [packOne, List.getLast?_concat]
  dsimp only
  rw [if_neg (Nat.not_le_of_lt full)]

private theorem pack_append (maxBytes : Nat) (tiles : List Tile) (first second : List Message) :
    pack maxBytes tiles (first ++ second) = pack maxBytes (pack maxBytes tiles first) second :=
  List.foldl_append

private theorem pack_cons (maxBytes : Nat) (tiles : List Tile) (message : Message)
    (rest : List Message) :
    pack maxBytes tiles (message :: rest) =
      pack maxBytes (packOne maxBytes tiles message) rest := rfl

private theorem Tile.extend_extend (tile : Tile) (first second : List Message) :
    (tile.extend first).extend second = tile.extend (first ++ second) := by
  have cursor : (tile.extend first).bytes.length +
      (encodeAll (numbered (tile.extend first).nextOffset second)).length =
        tile.bytes.length + (encodeAll (numbered tile.nextOffset (first ++ second))).length := by
    rw [bytes_extend, nextOffset_extend, numbered_append, encodeAll_append, List.length_append,
      List.length_append]
    omega
  unfold extend at cursor ⊢
  simp only [List.append_assoc] at cursor ⊢
  rw [cursor]

/-- The message a payload becomes. -/
theorem size_stamped (stamp : UInt64) (payload : Bytes) :
    (⟨stamp, none, some payload⟩ : Message).size = 28 + payload.length := by
  simp [Message.size, recordLen, fieldLen]

/-- A message that does not fit starts a new tile, whether or not that tile has
been opened already. -/
theorem pack_fresh (front : List Tile) {last : Tile}
    (full : maxBytes < last.bytes.length + message.size) (admitted : message.size ≤ maxBytes)
    (rest : List Message) :
    pack maxBytes (front ++ [last] ++ [Tile.fresh last.nextOffset])
      (message :: rest) = pack maxBytes (front ++ [last]) (message :: rest) := by
  have empty : (Tile.fresh last.nextOffset).bytes.length = 0 := rfl
  rw [pack_cons, pack_cons, packOne_of_full front full, packOne_of_fits _ (by omega)]

/-- What one write of a batch takes is what single appends put into the tile. -/
theorem pack_leading (stamp : UInt64) (front : List Tile) (last : Tile) (payloads : List Bytes)
    (nonempty : Segment.leading maxBytes last.bytes.length payloads ≠ []) :
    pack maxBytes (front ++ [last])
      (Segment.stamped stamp (Segment.leading maxBytes last.bytes.length payloads)) =
        front ++ [last.extend (Segment.stamped stamp
          (Segment.leading maxBytes last.bytes.length payloads))] := by
  induction payloads generalizing last with
  | nil => exact absurd rfl nonempty
  | cons payload rest ih =>
    have room : last.bytes.length + (28 + payload.length) ≤ maxBytes := by
      refine Decidable.byContradiction fun full => nonempty ?_
      exact if_neg full
    have grown : (last.extend [⟨stamp, none, some payload⟩]).bytes.length =
        last.bytes.length + (28 + payload.length) := by
      rw [Segment.length_bytes_extend_one, ← size_stamped stamp payload]
      rfl
    have takes : Segment.leading maxBytes last.bytes.length (payload :: rest) = payload ::
        Segment.leading maxBytes (last.extend [⟨stamp, none, some payload⟩]).bytes.length rest := by
      rw [grown]
      exact if_pos room
    have head : Segment.stamped stamp
        (Segment.leading maxBytes last.bytes.length (payload :: rest)) =
          ⟨stamp, none, some payload⟩ ::
            Segment.stamped stamp (Segment.leading maxBytes
              (last.extend [⟨stamp, none, some payload⟩]).bytes.length rest) := by
      rw [takes]
      rfl
    rw [head, pack_cons, packOne_of_fits front (by rw [size_stamped]; exact room)]
    by_cases more : Segment.leading maxBytes
      (last.extend [⟨stamp, none, some payload⟩]).bytes.length rest = []
    · rw [more]
      rfl
    · rw [ih _ more, Tile.extend_extend]
      rfl

private theorem appendMode_packOne (mode : AppendMode tiles) (message : Message) :
    AppendMode (packOne maxBytes tiles message) := by
  cases tiles using List.reverseRecOn with
  | nil => exact List.forall_mem_nil _
  | append_singleton front last =>
    have newest : (last.extend [message]).appendMode = true := mode last (by simp)
    rcases Nat.lt_or_ge maxBytes (last.bytes.length + message.size) with full | fits
    · rw [packOne_of_full front full]
      intro tile member
      rcases List.mem_append.mp member with old | isNew
      · exact mode tile old
      · rw [List.mem_singleton.mp isNew]
        rfl
    · rw [packOne_of_fits front fits]
      intro tile member
      rcases List.mem_append.mp member with old | isLast
      · exact mode tile (List.mem_append_left _ old)
      · rw [List.mem_singleton.mp isLast]
        exact newest

private theorem appendMode_pack (mode : AppendMode tiles) (messages : List Message) :
    AppendMode (pack maxBytes tiles messages) := by
  induction messages generalizing tiles with
  | nil => exact mode
  | cons message rest ih => exact ih (appendMode_packOne mode message)

namespace Partition
variable {world after : World} {partition : Partition} {front : List Tile}
  {last : Tile} {time : Nat}

/-- A call has put these payloads behind the tiles, all with one timestamp. -/
def Packs (partition : Partition) (tiles : List Tile) (stamp : UInt64) (payloads : List Bytes)
    (result : Partition) (after : World) : Prop :=
  result = partition.withTiles
    (pack partition.maxSegmentBytes tiles (Segment.stamped stamp payloads)) ∧
    Layout after partition.baseDir partition.maxSegmentBytes
      (pack partition.maxSegmentBytes tiles (Segment.stamped stamp payloads))

private theorem stamp_of_clock (clock : ∀ reading, world.clock reading = time) :
    world.stamp = UInt64.ofNat time := by
  rw [World.stamp, clock]

/-- A record stored in the last tile was placed there. -/
theorem packs_of_fits
    (layout : Layout world partition.baseDir partition.maxSegmentBytes (front ++ [last]))
    (bounded : (last.extend [⟨stamp, none, some payload⟩]).Bounded partition.maxSegmentBytes) :
    partition.Packs (front ++ [last]) stamp [payload]
      (partition.withTiles (front ++ [last.extend [⟨stamp, none, some payload⟩]]))
      ((last.extend [⟨stamp, none, some payload⟩]).lay world.tick partition.baseDir) := by
  have fits := bounded.size
  rw [Segment.length_bytes_extend_one] at fits
  have placed : pack partition.maxSegmentBytes (front ++ [last]) (Segment.stamped stamp [payload]) =
      front ++ [last.extend [⟨stamp, none, some payload⟩]] := packOne_of_fits front fits
  unfold Packs
  rw [placed]
  exact ⟨rfl, layout.tick.extend _ bounded⟩

/-- What was packed behind a tile just opened was packed behind the full one. -/
theorem Packs.after_rotation
    (full : partition.maxSegmentBytes < last.bytes.length + (28 + payload.length))
    (admitted : 28 + payload.length ≤ partition.maxSegmentBytes)
    (packs : partition.Packs (front ++ [last] ++ [Tile.fresh last.nextOffset]) stamp
      (payload :: rest) result after) :
      partition.Packs (front ++ [last]) stamp (payload :: rest) result after := by
  rw [← size_stamped stamp] at full admitted
  have same : pack partition.maxSegmentBytes (front ++ [last] ++ [Tile.fresh last.nextOffset])
      (Segment.stamped stamp (payload :: rest)) =
        pack partition.maxSegmentBytes (front ++ [last])
          (Segment.stamped stamp (payload :: rest)) :=
    pack_fresh front full admitted (Segment.stamped stamp rest)
  unfold Packs at packs ⊢
  rwa [same] at packs

private theorem Packs.append
      (packs : partition.Packs (pack partition.maxSegmentBytes tiles (Segment.stamped stamp first))
        stamp second result after) :
        partition.Packs tiles stamp (first ++ second) result after := by
  have split : Segment.stamped stamp (first ++ second) = Segment.stamped stamp first ++
      Segment.stamped stamp second :=
    List.map_append
  unfold Packs at packs ⊢
  rwa [split, pack_append]

/-- What follows a write of the batch is packed behind what the write took. -/
theorem Packs.after_stored
    (most : taken = Segment.leading partition.maxSegmentBytes last.bytes.length (taken ++ rest))
    (progress : taken ≠ [])
    (packs : partition.Packs (front ++ [last.extend (Segment.stamped stamp taken)]) stamp rest
      result after) : partition.Packs (front ++ [last]) stamp (taken ++ rest) result after := by
  have written := pack_leading stamp front last (taken ++ rest) (most ▸ progress)
  rw [← most] at written
  apply Packs.append
  rwa [written]

private theorem append_packs
    (layout : Layout world partition.baseDir partition.maxSegmentBytes (front ++ [last]))
    (atEnd : last.AtEnd) (payload : Bytes)
    (fits : 28 + payload.length ≤ partition.maxSegmentBytes) :
    ((partition.withTiles (front ++ [last])).append none (some payload)).Ensures world True
      fun reply after =>
      partition.Packs (front ++ [last]) world.stamp [payload] reply.2 after := by
  have size : recordLen none (some payload) = 28 + payload.length := size_stamped 0 payload
  have first : ((last.segment partition.baseDir partition.maxSegmentBytes
      partition.syncLevel).append none (some payload)).Ensures world _ _ :=
    Segment.append_outcome (layout.onDisk last (by simp)) (layout.bounded last (by simp)) none
      (some payload) fun _ => atEnd
  refine Program.ensures_bind
    (onActive_ensures (·.append none (some payload))
      (first.mono (fun _ => trivial) fun _ _ ended => ended)) ?_
  rintro _ after ⟨answer, active, rfl,
    ⟨large, -⟩ | ⟨-, full, held, same, unchanged⟩ | ⟨bounded, same, rfl⟩⟩
  · omega
  · cases same
    cases unchanged.symm
    rw [setActive_withBlocks]
    apply Program.ensures_bind_of_run (run_rotate layout held)
    have rotated := layout.rotate held
    have second : (((Tile.fresh last.nextOffset).segment partition.baseDir partition.maxSegmentBytes
        partition.syncLevel).append none (some payload)).Ensures
        ((Tile.fresh last.nextOffset).lay world partition.baseDir) _ _ :=
      Segment.append_outcome (rotated.onDisk (Tile.fresh last.nextOffset) (by simp))
        (rotated.bounded (Tile.fresh last.nextOffset) (by simp)) none (some payload)
          fun _ => .inl rfl
    refine Program.ensures_bind
      (onActive_ensures (·.append none (some payload))
        (second.mono (fun _ => trivial) fun _ _ ended => ended)) ?_
    rintro _ after ⟨answer, active, rfl, ⟨large, -⟩ | ⟨-, -, stillHeld, -⟩ | ⟨bounded, same, rfl⟩⟩
    · omega
    · exact absurd rfl stillHeld
    · cases same
      rw [setActive_withBlocks]
      refine Program.ensures_of_run rfl (Packs.after_rotation (by omega) fits ?_)
      exact packs_of_fits rotated bounded
  · cases same
    rw [setActive_withBlocks]
    exact Program.ensures_of_run rfl (packs_of_fits layout bounded)

private theorem appendPayloads_packs (fuel : Nat)
    (layout : Layout world partition.baseDir partition.maxSegmentBytes (front ++ [last]))
    (atEnd : last.AtEnd) (clock : ∀ reading, world.clock reading = time) (payloads : List Bytes)
    (fits : ∀ payload ∈ payloads, 28 + payload.length ≤ partition.maxSegmentBytes)
    (baseOffset : Option Nat) (enough : 2 * payloads.length + 1 ≤ fuel ∨
      (last.messages = [] ∧ payloads ≠ [] ∧ 2 * payloads.length ≤ fuel)) :
    (appendPayloads fuel (partition.withTiles (front ++ [last])) payloads
      baseOffset).Ensures world True fun reply after => partition.Packs (front ++ [last])
        (UInt64.ofNat time) payloads reply.2 after := by
  induction fuel generalizing world front last payloads baseOffset with
  | zero =>
    rcases enough with impossible | ⟨-, nonempty, impossible⟩
    · omega
    · exact absurd (List.length_eq_zero_iff.mp (by omega)) nonempty
  | succ fuel ih =>
    unfold appendPayloads
    split
    · rename_i exhausted
      subst exhausted
      exact Program.ensures_of_run rfl ⟨rfl, layout⟩
    rename_i nonempty
    have first : ((last.segment partition.baseDir partition.maxSegmentBytes
        partition.syncLevel).appendBatch payloads).Ensures world _ _ :=
      Segment.appendBatch_outcome (layout.onDisk last (by simp)) (layout.bounded last (by simp))
        payloads (fun _ => atEnd) nonempty
    rw [stamp_of_clock clock] at first
    refine Program.ensures_bind
      (onActive_ensures (·.appendBatch payloads)
        (first.mono (fun _ => trivial) fun _ _ ended => ended)) ?_
    rintro _ after ⟨answer, active, rfl,
      ⟨payload, rest, shape, large, -⟩ | ⟨held, nothing, -, same, rfl⟩ | ⟨taken, rest, rfl,
        progress, bounded, most, -, same, rfl⟩⟩
    · have small := fits payload (by rw [shape]; simp)
      omega
    · cases same
      obtain ⟨payload, rest, rfl⟩ := List.exists_cons_of_ne_nil nonempty
      have crowded : partition.maxSegmentBytes < last.bytes.length + Segment.recordsLen [] +
          (28 + payload.length) :=
        Segment.crowded_of_leading nothing
      have rounds : 2 * (payload :: rest).length ≤ fuel := by
        rcases enough with more | ⟨empty, -, -⟩
        · omega
        · exact absurd empty held
      rw [setActive_withBlocks]
      apply Program.ensures_bind_of_run (run_rotate layout.tick held)
      have tail := ih (layout.tick.rotate held) (.inl rfl) clock (payload :: rest) fits baseOffset
        (.inr ⟨rfl, nonempty, rounds⟩)
      exact tail.mono (fun trap => trap) fun _ _ packs =>
        packs.after_rotation crowded (fits payload (by simp))
    · cases same
      have takes := List.length_pos_iff.mpr progress
      have written := layout.tick.extend _ bounded
      have later : ∀ payload ∈ rest, 28 + payload.length ≤ partition.maxSegmentBytes :=
        fun payload member =>
        fits payload (List.mem_append_right _ member)
      rw [List.length_append] at enough
      rw [setActive_withBlocks]
      simp only [List.drop_left]
      split
      · rename_i exhausted
        have tail := ih written (last.atEnd_extend _) clock rest later
          (some (baseOffset.getD last.nextOffset))
            (.inl (by rw [exhausted]; simp only [List.length_nil]; omega))
        exact tail.mono (fun trap => trap) fun _ _ packs => packs.after_stored most progress
      · rename_i more
        have held : (last.extend (Segment.stamped (UInt64.ofNat time) taken)).messages ≠ [] := by
          simp [Tile.extend, Segment.stamped, progress]
        apply Program.ensures_bind_of_run (run_rotate written held)
        have tail := ih (written.rotate held) (.inl rfl) clock rest later
          (some (baseOffset.getD last.nextOffset)) (.inr ⟨rfl, more, by omega⟩)
        obtain ⟨payload, rest, rfl⟩ := List.exists_cons_of_ne_nil more
        refine tail.mono (fun trap => trap) fun _ _ packs => ?_
        refine Packs.after_stored most progress (packs.after_rotation ?_ (later payload (by simp)))
        rw [Tile.bytes_extend, List.length_append, Segment.length_encodeAll_stamped]
        exact Segment.crowded_of_leading most.symm

/-- `Partition::append_batch` packs its payloads as single appends do. -/
theorem appendBatch_packs
    (layout : Layout world partition.baseDir partition.maxSegmentBytes (front ++ [last]))
    (atEnd : last.AtEnd) (clock : ∀ reading, world.clock reading = time) (payloads : List Bytes)
    (fits : ∀ payload ∈ payloads, 28 + payload.length ≤ partition.maxSegmentBytes) :
    ((partition.withTiles (front ++ [last])).appendBatch payloads).Ensures world True
      fun reply after =>
      partition.Packs (front ++ [last]) (UInt64.ofNat time) payloads reply.2 after :=
  appendPayloads_packs _ layout atEnd clock payloads fits none (.inl (Nat.le_refl _))

end Partition

/-- A producer's calls: one payload, or several in a batch. -/
inductive Submission where
  | one (payload : Bytes)
  | batch (payloads : List Bytes)

namespace Submission

def request : Submission → Request
  | one payload => .append none (some payload)
  | batch payloads => .appendBatch payloads

def payloads : Submission → List Bytes
  | one payload => [payload]
  | batch payloads => payloads

end Submission

section Runs
variable {settings : Settings} {world otherWorld : World} {partition otherPartition : Partition}
  {tiles : List Tile} {groups otherGroups : List Submission} {time : Nat}

/-- Whichever call hands the payloads in, they are packed behind the tiles. -/
theorem Partition.serve_packs
    (layout : Layout world partition.baseDir partition.maxSegmentBytes tiles)
    (mode : AppendMode tiles) (clock : ∀ reading, world.clock reading = time)
    (submission : Submission)
    (fits : ∀ payload ∈ submission.payloads, 28 + payload.length ≤ partition.maxSegmentBytes) :
    ((partition.withTiles tiles).serve submission.request).Ensures world True fun reply after =>
      partition.Packs tiles (UInt64.ofNat time) submission.payloads reply.2 after := by
  obtain ⟨front, last, rfl⟩ : ∃ front last, tiles = front ++ [last] :=
    ⟨_, _, (List.dropLast_append_getLast layout.tiled.nonempty).symm⟩
  have atEnd : last.AtEnd := .inl (mode last (by simp))
  cases submission with
  | one payload =>
    have packs := append_packs layout atEnd payload (fits payload (List.mem_singleton_self payload))
    rw [stamp_of_clock clock] at packs
    apply Program.ensures_bind packs
    intro reply after packed
    exact Program.ensures_of_run rfl packed
  | batch payloads =>
    apply Program.ensures_bind (appendBatch_packs layout atEnd clock payloads fits)
    intro reply after packed
    exact Program.ensures_of_run rfl packed

/-- A run of such calls arrives at all its payloads packed behind the first
segment. No call changes the clock, so the clock at the end was that of every
call. -/
theorem Life.packed (life : Life settings restarts meets world partition history)
    (once : ¬ restarts) (submitted : history.map Prod.fst = groups.map Submission.request)
    (fits : ∀ payload ∈ groups.flatMap Submission.payloads,
      28 + payload.length ≤ settings.maxSegmentBytes)
    (clock : ∀ reading, world.clock reading = time) :
    ∃ level, (settings.frame level).Packs [Tile.fresh 0] (UInt64.ofNat time)
      (groups.flatMap Submission.payloads) partition world := by
  induction life generalizing groups with
  | opened readDir syncLevel vacant enumerates ran =>
    obtain ⟨fresh, layout⟩ := Partition.run_openOrCreate_vacant readDir settings.topic settings.id
      settings.baseDir settings.maxSegmentBytes syncLevel vacant enumerates
    rw [Settings.openOrCreate, fresh] at ran
    cases ran
    cases List.map_eq_nil_iff.mp submitted.symm
    exact ⟨syncLevel, rfl, layout⟩
  | served life met ran ih =>
    rename_i before self history request after answer result
    rw [List.map_append] at submitted
    obtain ⟨earlier, latest, rfl, first, second⟩ := List.map_eq_append_iff.mp submitted.symm
    obtain ⟨submission, rfl, same⟩ := List.map_eq_singleton_iff.mp second
    have kept : after.clock = before.clock := by
      have unchanged := Program.run_clock (self.serve request) before
      rwa [ran] at unchanged
    rw [kept] at clock
    simp only [List.flatMap_append, List.flatMap_singleton, List.mem_append] at fits ⊢
    obtain ⟨level, shape, layout⟩ :=
      ih first.symm (fun payload member => fits payload (.inl member)) clock
    have fresh : AppendMode [Tile.fresh 0] := by
      intro tile member
      rw [List.mem_singleton.mp member]
      rfl
    have packs := Partition.serve_packs layout (appendMode_pack fresh _) clock submission
      fun payload member => fits payload (.inr member)
    rw [← shape, same] at packs
    exact ⟨level, Partition.Packs.append (packs.of_run ran)⟩
  | restarted life allowed readDir level enumerates ran ih => exact absurd allowed once

/-- How the payloads are grouped into calls shows neither in the partition nor
in its files: two runs that hand in the same payloads at the same time end with
equal partitions and directories. -/
theorem batching_unobservable (session : Session settings world partition history)
    (otherSession : Session settings otherWorld otherPartition otherHistory)
    (level : partition.syncLevel = otherPartition.syncLevel)
    (submitted : history.map Prod.fst = groups.map Submission.request)
    (otherSubmitted : otherHistory.map Prod.fst = otherGroups.map Submission.request)
    (same : groups.flatMap Submission.payloads = otherGroups.flatMap Submission.payloads)
    (fits : ∀ payload ∈ groups.flatMap Submission.payloads,
      28 + payload.length ≤ settings.maxSegmentBytes)
    (clock : ∀ reading, world.clock reading = time)
    (otherClock : ∀ reading, otherWorld.clock reading = time) :
    partition = otherPartition ∧
      ∀ name, world.node (settings.dir ++ [name]) = otherWorld.node (settings.dir ++ [name]) := by
  obtain ⟨syncLevel, shape, layout⟩ := session.packed not_false submitted fits clock
  obtain ⟨otherLevel, otherShape, otherLayout⟩ :=
    otherSession.packed not_false otherSubmitted (same ▸ fits) otherClock
  rw [← same] at otherShape otherLayout
  have levels : syncLevel = otherLevel := by
    rw [shape, otherShape] at level
    exact level
  constructor
  · rw [shape, otherShape, levels]
  · exact layout.node_eq otherLayout

end Runs

/-- An empty disk, and a clock that stands still. -/
private def stoppedWorld : World := ⟨fun _ => none, fun _ => 5, 0⟩

/-- Three payloads in a log whose segments hold two: one by one, and in a batch
that rotates inside, behind an empty one. -/
theorem batching_unobservable_rotated :
    ∃ world otherWorld partition otherPartition history otherHistory,
      Session ⟨"t", 0, [], 60⟩ world partition history ∧
      Session ⟨"t", 0, [], 60⟩ otherWorld otherPartition otherHistory ∧
      history.map Prod.fst = [.append none (some [1]), .append none (some [2]),
        .append none (some [3])] ∧
      otherHistory.map Prod.fst = [.appendBatch [], .appendBatch [[1], [2], [3]]] ∧
      partition = otherPartition ∧
      ∀ name, world.node (Settings.dir ⟨"t", 0, [], 60⟩ ++ [name]) =
        otherWorld.node (Settings.dir ⟨"t", 0, [], 60⟩ ++ [name]) := by
  have vacant := vacant_of_blank fun path => (rfl : stoppedWorld.node path = none)
  have enumerates := enumerates_of_blank fun path => (rfl : stoppedWorld.node path = none)
  obtain ⟨world, partition, history, session, submitted, level, clock⟩ :=
    exists_session_from ⟨"t", 0, [], 60⟩ (by decide) (vacant _) (enumerates _)
      ([.one [1], .one [2], .one [3]].map Submission.request) (by decide) (by decide)
  obtain ⟨otherWorld, otherPartition, otherHistory, otherSession, otherSubmitted,
    otherLevel, otherClock⟩ :=
    exists_session_from ⟨"t", 0, [], 60⟩ (by decide) (vacant _) (enumerates _)
      ([.batch [], .batch [[1], [2], [3]]].map Submission.request) (by decide) (by decide)
  have times (reading : Nat) : world.clock reading = 5 := congrFun clock reading
  have otherTimes (reading : Nat) : otherWorld.clock reading = 5 := congrFun otherClock reading
  exact ⟨world, otherWorld, partition, otherPartition, history, otherHistory, session, otherSession,
    submitted, otherSubmitted, batching_unobservable session otherSession
      (level.trans otherLevel.symm) submitted otherSubmitted rfl (by decide) times otherTimes⟩

end Ruka
