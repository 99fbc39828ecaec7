import Ruka.AppendOnlyRefinement

/-! When a fetch skips records. The segment loop of `read_batch` goes on to the
next segment also when the record loop stopped inside the current one for lack
of budget; a shorter record at the start of the next segment is then returned
although the records in between were not. -/
namespace Ruka
open BigEndian LexicalPaths FilePrograms TiledBlocks

/-- A fetch of `maxBytes` at `offset` takes `run` records, stops inside a
segment, and resumes with the record at `next`, the first of a later segment.
`sizes` are the sizes of the records of the log and `bases` the offsets at
which its segments start. -/
structure SkipsTo (sizes bases : List Nat) (offset maxBytes run next : Nat) : Prop where
  begun : 0 < run
  fits : ((sizes.drop offset).take run).sum ≤ maxBytes
  stops : maxBytes < ((sizes.drop offset).take (run + 1)).sum
  beyond : offset + run < next
  segment : next ∈ bases
  nearest : ∀ base ∈ bases, base < offset + run ∨ next ≤ base
  resumes : ∃ size ∈ sizes[next]?, ((sizes.drop offset).take run).sum + size ≤ maxBytes

def Skips (sizes bases : List Nat) (offset maxBytes : Nat) : Prop :=
  ∃ run next, SkipsTo sizes bases offset maxBytes run next

/-! ## The budget -/

/-- Either everything fits, or there is a first message that does not. -/
theorem within_cases (budget : Nat) (messages : List Message) :
    (within budget messages = messages ∧ totalSize messages ≤ budget) ∨
      ∃ message back, messages = within budget messages ++ message :: back ∧
        budget < totalSize (within budget messages) + message.size := by
  induction messages generalizing budget with
  | nil => exact .inl ⟨rfl, Nat.zero_le _⟩
  | cons message rest ih =>
    by_cases room : message.size ≤ budget
    · have step : within budget (message :: rest) =
          message :: within (budget - message.size) rest := if_pos room
      rcases ih (budget - message.size) with ⟨all, fits⟩ | ⟨later, back, shape, excess⟩
      · left
        simp only [totalSize, List.map_cons, List.sum_cons] at fits ⊢
        exact ⟨by rw [step, all], by omega⟩
      · refine .inr ⟨later, back, ?_, ?_⟩
        · rw [step, List.cons_append, ← shape]
        · rw [step]
          simp only [totalSize, List.map_cons, List.sum_cons] at excess ⊢
          omega
    · have empty : within budget (message :: rest) = [] := if_neg room
      refine .inr ⟨message, rest, by rw [empty]; rfl, ?_⟩
      rw [empty]
      simp only [totalSize, List.map_nil, List.sum_nil]
      omega

private theorem within_append_of_fits (fits : totalSize front ≤ budget) (back : List Message) :
    within budget (front ++ back) = front ++ within (budget - totalSize front) back := by
  induction front generalizing budget with
  | nil => rfl
  | cons message rest ih =>
    simp only [totalSize, List.map_cons, List.sum_cons] at fits
    rw [List.cons_append, within, if_pos (by omega), ih (by simp only [totalSize]; omega),
      List.cons_append]
    simp [totalSize, Nat.sub_sub]

private theorem within_append_of_stop
    (stops : budget < totalSize (within budget front) + message.size)
    (shape : front = within budget front ++ message :: rest) (back : List Message) :
    within budget (front ++ back) = within budget front := by
  have fits := totalSize_within budget front
  generalize taken : within budget front = kept at *
  rw [shape, List.append_assoc, within_append_of_fits fits, List.cons_append, within,
    if_neg (by omega), List.append_nil]

private theorem fetched_eq_within (fits : message.size ≤ budget) (rest : List Message) :
    fetched budget (message :: rest) = within budget (message :: rest) :=
  (if_pos fits).symm

/-! ## Where a fetch stands -/

theorem contents_cons (tile : Tile) (rest : List Tile) :
    contents (tile :: rest) = tile.messages ++ contents rest :=
  List.flatMap_cons

namespace Tile

/-- What the tile holds from `offset` on. -/
def remaining (tile : Tile) (offset : Nat) : List Message :=
  tile.messages.drop (offset - tile.baseOffset)

theorem remaining_baseOffset (tile : Tile) : tile.remaining tile.baseOffset = tile.messages := by
  simp [remaining]

end Tile

/-- A fetch that has come to `offset`, which lies in `tile`, with the tiles of
`rest` to follow. -/
structure Ahead (sizes bases : List Nat) (tile : Tile) (rest : List Tile)
    (offset : Nat) : Prop where
  tiled : Tiled Tile.baseOffset Tile.messages tile.baseOffset (tile :: rest)
  low : tile.baseOffset ≤ offset
  high : ∀ later ∈ rest, offset < later.baseOffset
  messages : sizes.drop offset = (tile.remaining offset ++ contents rest).map Message.size
  starts : ∀ base, offset < base → (base ∈ bases ↔ base ∈ rest.map Tile.baseOffset)

namespace Ahead
variable {sizes bases : List Nat} {tile next : Tile} {rest : List Tile} {offset budget : Nat}

private theorem next_base (ahead : Ahead sizes bases tile (next :: rest) offset) :
    next.baseOffset = offset + (tile.remaining offset).length := by
  have tiled : Tiled Tile.baseOffset Tile.messages tile.baseOffset
      ([] ++ tile :: next :: rest) := ahead.tiled
  have following := tiled.next_base
  have below := ahead.high next (by simp)
  have low := ahead.low
  simp only [Tile.remaining, List.length_drop]
  omega

theorem remaining_ne_nil (ahead : Ahead sizes bases tile (next :: rest) offset) :
    tile.remaining offset ≠ [] := by
  have following := ahead.next_base
  have below := ahead.high next (by simp)
  intro nothing
  rw [nothing] at following
  simp only [List.length_nil] at following
  omega

/-- The fetch moves on to the next tile. -/
theorem advance (ahead : Ahead sizes bases tile (next :: rest) offset) :
    Ahead sizes bases next rest next.baseOffset := by
  have following := ahead.next_base
  have tail : Tiled Tile.baseOffset Tile.messages (tile.baseOffset + tile.messages.length)
      (next :: rest) :=
    ahead.tiled.2.2
  have tailSorted := tail.sorted
  refine ⟨?_, Nat.le_refl _, (List.pairwise_cons.mp tailSorted).1, ?_, fun base beyond => ?_⟩
  · have whole : Tiled Tile.baseOffset Tile.messages tile.baseOffset
        ([] ++ tile :: next :: rest) := ahead.tiled
    rw [whole.next_base]
    exact tail
  · have later : sizes.drop next.baseOffset =
        (sizes.drop offset).drop (tile.remaining offset).length := by
      rw [List.drop_drop, following]
    rw [later, ahead.messages, List.map_append, List.drop_left' (by simp),
      Tile.remaining_baseOffset, contents_cons]
  · rw [ahead.starts base (by omega), List.map_cons, List.mem_cons]
    exact or_iff_right (by omega)

/-- The record at the start of the next tile. -/
theorem next_size (ahead : Ahead sizes bases tile (next :: rest) offset) :
    sizes[next.baseOffset]? = ((contents (next :: rest)).map Message.size)[0]? := by
  have later := ahead.advance.messages
  rw [Tile.remaining_baseOffset, ← contents_cons] at later
  rw [← later, List.getElem?_drop, Nat.add_zero]

/-- The sum of the first sizes, where they reach past the tile. -/
theorem sum_take (ahead : Ahead sizes bases tile rest offset) (run : Nat) :
    ((sizes.drop offset).take ((tile.remaining offset).length + run)).sum =
      totalSize (tile.remaining offset) + (((contents rest).map Message.size).take run).sum := by
  rw [ahead.messages, List.map_append, List.take_append, List.sum_append,
    List.take_of_length_le (by simp)]
  simp [totalSize]

private theorem sum_take_mono (list : List Nat) (shorter : few ≤ many) :
    (list.take few).sum ≤ (list.take many).sum := by
  have split := List.sum_take_add_sum_drop (list.take many) few
  rw [List.take_take, Nat.min_eq_left shorter] at split
  omega

/-- Nothing is skipped in the last tile. -/
theorem not_skips_of_last (ahead : Ahead sizes bases tile [] offset) :
    ¬ Skips sizes bases offset budget := by
  rintro ⟨run, next, skips⟩
  have beyond := skips.beyond
  have empty := (ahead.starts next (by omega)).mp skips.segment
  cases empty

/-- When the whole tile fits, what happens is decided in the next one. -/
theorem skips_advance (ahead : Ahead sizes bases tile (next :: rest) offset)
    (fits : totalSize (tile.remaining offset) ≤ budget) :
    Skips sizes bases offset budget ↔
      Skips sizes bases next.baseOffset (budget - totalSize (tile.remaining offset)) := by
  have following := ahead.next_base
  have later := ahead.advance.messages
  rw [Tile.remaining_baseOffset, ← contents_cons] at later
  have nextIn : next.baseOffset ∈ bases :=
    (ahead.starts next.baseOffset (ahead.high next (by simp))).mpr (by simp)
  have sum : ∀ run, ((sizes.drop offset).take ((tile.remaining offset).length + run)).sum =
      totalSize (tile.remaining offset) + ((sizes.drop next.baseOffset).take run).sum := by
    intro run
    rw [ahead.sum_take, later]
  constructor
  · rintro ⟨run, target, skips⟩
    have stops := skips.stops
    have beyond := skips.beyond
    -- everything in this tile fits, so the stop is behind its end, and not at it
    have past : (tile.remaining offset).length ≤ run := by
      refine Nat.le_of_not_lt fun short => ?_
      have part : ((sizes.drop offset).take (run + 1)).sum ≤ totalSize (tile.remaining offset) := by
        rw [ahead.messages, List.map_append,
          List.take_append_of_le_length (by rw [List.length_map]; exact short), totalSize,
          ← List.sum_take_add_sum_drop ((tile.remaining offset).map Message.size) (run + 1)]
        exact Nat.le_add_right _ _
      omega
    obtain ⟨more, rfl⟩ := Nat.exists_eq_add_of_le past
    have apart : more ≠ 0 := by
      rintro rfl
      rcases skips.nearest _ nextIn with before | after
      · omega
      · omega
    have fitting := skips.fits
    obtain ⟨size, held, room⟩ := skips.resumes
    rw [Nat.add_assoc, sum] at stops
    rw [sum] at fitting room
    refine ⟨more, target, by omega, by omega, by omega, by omega, skips.segment,
      fun base member => ?_, size, held, by omega⟩
    have near := skips.nearest base member
    omega
  · rintro ⟨more, target, skips⟩
    have stops := skips.stops
    have beyond := skips.beyond
    have fitting := skips.fits
    have begun := skips.begun
    obtain ⟨size, held, room⟩ := skips.resumes
    refine ⟨(tile.remaining offset).length + more, target, by omega, ?_, ?_, by omega,
      skips.segment, fun base member => ?_, size, held, ?_⟩
    · rw [sum]
      omega
    · rw [Nat.add_assoc, sum]
      omega
    · have near := skips.nearest base member
      omega
    · rw [sum]
      omega

/-- When the budget runs out inside the tile, records are skipped if some were
taken and the first one behind the tile fits what is left. -/
theorem skips_of_stop (ahead : Ahead sizes bases tile rest offset)
    (shape : tile.remaining offset = taken ++ message :: back) (fits : totalSize taken ≤ budget)
    (stops : budget < totalSize taken + message.size) :
    Skips sizes bases offset budget ↔
      taken ≠ [] ∧ ∃ first ∈ (contents rest).head?, totalSize taken + first.size ≤ budget := by
  have here : ((sizes.drop offset).take taken.length).sum = totalSize taken := by
    rw [ahead.messages, shape]
    simp [totalSize]
  have past : ((sizes.drop offset).take (taken.length + 1)).sum =
      totalSize taken + message.size := by
    rw [ahead.messages, shape]
    simp [totalSize, List.take_append, List.take_of_length_le]
  have inside : taken.length < (tile.remaining offset).length := by
    rw [shape]
    simp
  constructor
  · rintro ⟨run, target, skips⟩
    have fitting := skips.fits
    have stopping := skips.stops
    have beyond := skips.beyond
    have begun := skips.begun
    obtain rfl : run = taken.length := by
      rcases Nat.lt_trichotomy run taken.length with less | equal | more
      · have below := sum_take_mono (sizes.drop offset) (show run + 1 ≤ taken.length from less)
        omega
      · exact equal
      · have above := sum_take_mono (sizes.drop offset) (show taken.length + 1 ≤ run from more)
        omega
    refine ⟨List.length_pos_iff.mp begun, ?_⟩
    cases rest with
    | nil => exact absurd ⟨_, _, skips⟩ ahead.not_skips_of_last
    | cons next rest =>
      have following := ahead.next_base
      have sorted := (List.pairwise_cons.mp ahead.advance.tiled.sorted).1
      have nextIn : next.baseOffset ∈ bases :=
        (ahead.starts next.baseOffset (ahead.high next (by simp))).mpr (by simp)
      have near := skips.nearest _ nextIn
      obtain ⟨other, member, rfl⟩ :=
        List.mem_map.mp ((ahead.starts target (by omega)).mp skips.segment)
      obtain rfl : other = next := by
        rcases List.mem_cons.mp member with same | later
        · exact same
        · have above := sorted other later
          omega
      obtain ⟨size, held, room⟩ := skips.resumes
      rw [ahead.next_size, List.getElem?_map, Option.mem_def, Option.map_eq_some_iff] at held
      obtain ⟨first, found, rfl⟩ := held
      rw [here] at room
      exact ⟨first, by rw [List.head?_eq_getElem?]; exact found, room⟩
  · rintro ⟨nonempty, first, found, room⟩
    cases rest with
    | nil => cases found
    | cons next rest =>
      have following := ahead.next_base
      have nextIn := ahead.starts next.baseOffset (ahead.high next (by simp))
      refine ⟨taken.length, next.baseOffset, List.length_pos_iff.mpr nonempty, by omega, by omega,
        by omega, nextIn.mpr (by simp), fun base member => ?_, first.size, ?_, by omega⟩
      · refine (Nat.lt_or_ge base (offset + taken.length)).imp_right fun high => ?_
        have positive := List.length_pos_iff.mpr nonempty
        obtain ⟨other, listed, rfl⟩ := List.mem_map.mp ((ahead.starts base (by omega)).mp member)
        exact ahead.advance.tiled.start_le listed
      · rw [ahead.next_size, List.getElem?_map, ← List.head?_eq_getElem?, found]
        rfl

/-- Only the last tile can be empty, so what follows starts in the next one. -/
theorem next_messages (ahead : Ahead sizes bases tile (next :: rest) offset)
    (found : first ∈ (contents (next :: rest)).head?) :
    ∃ others, next.remaining next.baseOffset = first :: others := by
  rw [Tile.remaining_baseOffset]
  cases messages : next.messages with
  | nil =>
    cases rest with
    | nil =>
      rw [contents_cons, messages] at found
      cases found
    | cons third rest => exact absurd messages ahead.tiled.2.2.2.1
  | cons head others =>
    rw [contents_cons, messages] at found
    cases found
    exact ⟨others, rfl⟩

end Ahead

/-! ## What a fetch returns -/

namespace Partition
variable {sizes bases : List Nat} {tile next : Tile} {rest : List Tile} {offset budget : Nat}

/-- A tile whose first remaining message fits the budget. -/
theorem fetchAcross_cons (shape : tile.remaining offset = message :: back)
    (fits : message.size ≤ budget) : fetchAcross (tile :: rest) offset budget results =
      fetchAcross rest (nextTileBase rest offset)
        (budget - totalSize (within budget (message :: back)))
          (results ++ numbered offset (within budget (message :: back))) := by
  have atLeast : 28 ≤ message.size := recordLen_ge _ _
  have taken := fetched_eq_within fits back
  rw [fetchAcross, if_neg (by omega), show tile.messages.drop (offset - tile.baseOffset) =
    message :: back from shape, ← taken]
  simp only [fetched]
  rw [if_pos fits]

/-- Without room for the next message a fetch that has something ends. -/
theorem fetchAcross_full (tiled : rest ≠ [] → Tiled Tile.baseOffset Tile.messages start rest)
    (nonempty : results ≠ []) (full : ∀ first ∈ (contents rest).head?, budget < first.size) :
    fetchAcross rest (nextTileBase rest offset) budget results = results := by
  cases rest with
  | nil => rfl
  | cons next rest =>
    have chain := tiled (by simp)
    have base : nextTileBase (next :: rest) offset = next.baseOffset := rfl
    rw [base, fetchAcross, Nat.sub_self, List.drop_zero]
    split
    · rfl
    cases shape : next.messages with
    | nil =>
      -- only the last tile can be empty
      cases rest with
      | nil => rfl
      | cons later rest => exact absurd shape chain.2.1
    | cons first more =>
      have large : budget < first.size := full first (by simp [contents, shape])
      simp [fetched, Nat.not_le_of_lt large]

/-- Where nothing is skipped, what is returned is what fits. -/
theorem fetchAcross_more (ahead : Ahead sizes bases tile rest offset)
    (clear : ¬ Skips sizes bases offset budget)
    (going : results ≠ [] ∨ ∀ first ∈ (tile.remaining offset).head?, first.size ≤ budget) :
    fetchAcross (tile :: rest) offset budget results =
      results ++ numbered offset (within budget (tile.remaining offset ++ contents rest)) := by
  induction rest generalizing tile offset budget results with
  | nil =>
    rw [show contents [] = [] from rfl, List.append_nil]
    cases shape : tile.remaining offset with
    | nil =>
      rw [fetchAcross, show tile.messages.drop (offset - tile.baseOffset) = [] from shape]
      simp [fetched, fetchAcross, within, numbered]
    | cons message back =>
      by_cases fits : message.size ≤ budget
      · rw [fetchAcross_cons shape fits]
        rfl
      · have nonempty : results ≠ [] := going.resolve_right fun all =>
          fits (all message (by simp [shape]))
        rw [fetchAcross, show tile.messages.drop (offset - tile.baseOffset) =
          message :: back from shape]
        simp [fetched, fits, nonempty, within, numbered]
  | cons next rest ih =>
    obtain ⟨message, back, shape⟩ := List.exists_cons_of_ne_nil ahead.remaining_ne_nil
    by_cases fits : message.size ≤ budget
    · have took : numbered offset (within budget (tile.remaining offset)) ≠ [] := by
        rw [shape, within, if_pos fits]
        exact List.cons_ne_nil _ _
      rw [fetchAcross_cons shape fits, ← shape]
      rcases within_cases budget (tile.remaining offset) with ⟨all, room⟩ | ⟨later,
        more, parts, stops⟩
      · rw [all] at took ⊢
        rw [show nextTileBase (next :: rest) offset = next.baseOffset from rfl,
          ih ahead.advance (mt (ahead.skips_advance room).mpr clear) (.inl (by simp [took])),
          within_append_of_fits room, numbered_append, Tile.remaining_baseOffset, ← contents_cons,
          ahead.next_base, List.append_assoc]
      · have room := totalSize_within budget (tile.remaining offset)
        have crowded : ∀ first ∈ (contents (next :: rest)).head?,
            budget - totalSize (within budget (tile.remaining offset)) < first.size := by
          intro first found
          refine Nat.lt_of_not_le fun fitting =>
            clear ((ahead.skips_of_stop parts room stops).mpr ⟨?_, first, found, ?_⟩)
          · intro nothing
            rw [nothing] at took
            exact took rfl
          · omega
        rw [fetchAcross_full (fun _ => ahead.tiled.2.2) (by simp [took]) crowded,
          within_append_of_stop stops parts]
    · have nonempty : results ≠ [] := going.resolve_right fun all =>
        fits (all message (by simp [shape]))
      rw [fetchAcross, show tile.messages.drop (offset - tile.baseOffset) =
        message :: back from shape, shape]
      simp [fetched, fits, nonempty, within, numbered]

/-- Where something is skipped, the offsets jump. -/
theorem fetchAcross_gap (ahead : Ahead sizes bases tile rest offset)
    (skips : Skips sizes bases offset budget) (prior : List Message)
    (behind : start + prior.length = offset) :
    ∃ front record back, fetchAcross (tile :: rest) offset budget (numbered start prior) =
      front ++ record :: back ∧ record.offset ≠ start + front.length := by
  induction rest generalizing tile offset budget prior with
  | nil => exact absurd skips ahead.not_skips_of_last
  | cons next rest ih =>
    have following := ahead.next_base
    obtain ⟨message, back, shape⟩ := List.exists_cons_of_ne_nil ahead.remaining_ne_nil
    have fits : message.size ≤ budget := by
      obtain ⟨run, target, skips⟩ := skips
      have begun := skips.begun
      have fitting := skips.fits
      obtain ⟨less, rfl⟩ : ∃ less, run = less + 1 := ⟨run - 1, by omega⟩
      rw [ahead.messages, shape, List.cons_append, List.map_cons, List.take_succ_cons,
        List.sum_cons] at fitting
      omega
    rw [fetchAcross_cons shape fits, ← shape, show nextTileBase (next :: rest) offset =
      next.baseOffset from rfl]
    rcases within_cases budget (tile.remaining offset) with ⟨all, room⟩ | ⟨later,
      more, parts, stops⟩
    · have joined : numbered start prior ++ numbered offset (tile.remaining offset) =
          numbered start (prior ++ tile.remaining offset) := by
        rw [numbered_append, behind]
      rw [all, joined]
      exact ih ahead.advance ((ahead.skips_advance room).mp skips) _
        (by rw [List.length_append]; omega)
    · have room := totalSize_within budget (tile.remaining offset)
      obtain ⟨took, first, found, fitting⟩ := (ahead.skips_of_stop parts room stops).mp skips
      obtain ⟨others, held⟩ := ahead.next_messages found
      have shorter : (within budget (tile.remaining offset)).length <
          (tile.remaining offset).length := by
        have length := congrArg List.length parts
        rw [List.length_append, List.length_cons] at length
        omega
      have last : first.size ≤ budget -
          totalSize (within budget (tile.remaining offset)) := by omega
      generalize budget - totalSize (within budget (tile.remaining offset)) = left at last ⊢
      rw [fetchAcross_cons held last, within, if_pos last, numbered]
      -- the record at the start of the next tile comes right behind those taken here
      obtain ⟨tail, whole⟩ := fetchAcross_isPrefix rest (nextTileBase rest next.baseOffset)
        (left - totalSize (first :: within (left - first.size) others))
        (show numbered start prior ++ numbered offset (within budget (tile.remaining offset)) ++
          (first.record next.baseOffset :: numbered (next.baseOffset + 1)
            (within (left - first.size) others)) ≠ []
          by simp)
      refine ⟨_, first.record next.baseOffset, _,
        by rw [← whole, List.append_assoc, List.cons_append], ?_⟩
      simp only [Message.record, List.length_append, length_numbered]
      omega

end Partition

/-- What a fetch at `offset` makes of the log. -/
structure Fetches (messages : List Message) (bases : List Nat) (offset maxBytes : Nat)
    (records : List Record) : Prop where
  held : ∀ record ∈ records, ∃ message ∈ messages[record.offset]?,
    record = message.record record.offset
  gapless : ¬ Skips (messages.map Message.size) bases offset maxBytes →
    records = if maxBytes = 0 then [] else numbered offset (fetched maxBytes (messages.drop offset))
  gap : Skips (messages.map Message.size) bases offset maxBytes →
    ∃ front record back, records = front ++ record :: back ∧ record.offset ≠ offset + front.length

/-- The offsets of the records follow each other from `offset` on. -/
def Consecutive (offset : Nat) (records : List Record) : Prop :=
  records.map Record.offset = List.range' offset records.length

instance (offset : Nat) (records : List Record) : Decidable (Consecutive offset records) := by
  unfold Consecutive
  infer_instance

private theorem consecutive_numbered (offset : Nat) (messages : List Message) :
    Consecutive offset (numbered offset messages) := by
  rw [Consecutive, map_offset_numbered, length_numbered]

private theorem not_consecutive_of_gap {records front back : List Record}
    (shape : records = front ++ record :: back) (jump : record.offset ≠ offset + front.length) :
    ¬ Consecutive offset records := by
  intro consecutive
  have there := congrArg (·[front.length]?) consecutive
  simp only [shape, List.getElem?_map, List.getElem?_append_right (Nat.le_refl _), Nat.sub_self,
    List.getElem?_cons_zero, Option.map_some, List.length_append, List.length_cons] at there
  rw [List.getElem?_range' (by omega), Option.some.injEq] at there
  omega

private theorem Fetches.consecutive_iff (fetches : Fetches messages bases offset maxBytes records) :
    Consecutive offset records ↔ ¬ Skips (messages.map Message.size) bases offset maxBytes := by
  constructor
  · intro consecutive skips
    obtain ⟨front, record, back, shape, jump⟩ := fetches.gap skips
    exact not_consecutive_of_gap shape jump consecutive
  · intro clear
    rw [fetches.gapless clear]
    split
    · rfl
    · exact consecutive_numbered _ _

/-- The log from an offset on is the rest of one tile and the tiles behind it. -/
theorem Filed.drop_contents {world : World} {dir : Path} {tile : Tile} {front back : List Tile}
    (filed : Filed world dir maxBytes (front ++ tile :: back)) (low : tile.baseOffset ≤ offset)
    (high : ∀ later ∈ back, offset < later.baseOffset) :
    (contents (front ++ tile :: back)).drop offset = tile.remaining offset ++ contents back := by
  have here := filed.tiled.base_eq
  have whole : contents (front ++ tile :: back) =
      contents front ++ (tile.messages ++ contents back) := by
    simp [contents]
  have depth : offset = (contents front).length + (offset - tile.baseOffset) := by
    simp only [contents]
    omega
  have rest : (contents back).drop (offset - tile.baseOffset - tile.messages.length) =
      contents back := by
    cases back with
    | nil => simp [contents]
    | cons next back =>
      have bound := high next (by simp)
      have following := filed.tiled.next_base
      rw [show offset - tile.baseOffset - tile.messages.length = 0 by omega, List.drop_zero]
  rw [whole]
  conv_lhs => rw [depth]
  rw [← List.drop_drop, List.drop_left, List.drop_append, rest]
  rfl

/-- A fetch that starts in the tile the offset falls into. -/
theorem Filed.ahead {world : World} {dir : Path} {tile : Tile} {front back : List Tile}
    (filed : Filed world dir maxBytes (front ++ tile :: back)) (low : tile.baseOffset ≤ offset)
    (high : ∀ later ∈ back, offset < later.baseOffset) :
    Ahead ((contents (front ++ tile :: back)).map Message.size)
      ((front ++ tile :: back).map Tile.baseOffset) tile back offset where
  tiled := filed.tiled.from_block
  low := low
  high := high
  messages := by rw [← List.map_drop, filed.drop_contents low high]
  starts := by
    intro base beyond
    have sorted := (List.pairwise_append.mp filed.tiled.sorted).2.2
    rw [List.map_append, List.map_cons, List.mem_append, List.mem_cons]
    refine ⟨?_, fun later => .inr (.inr later)⟩
    rintro (early | rfl | later)
    · obtain ⟨other, member, rfl⟩ := List.mem_map.mp early
      have below := sorted other member tile (by simp)
      omega
    · omega
    · exact later

namespace Partition
variable {world : World} {partition : Partition} {tiles : List Tile}

theorem fetches_fetchAcross {front back : List Tile} {tile : Tile}
    (filed : Filed world dir limit (front ++ tile :: back)) (low : tile.baseOffset ≤ offset)
    (high : ∀ later ∈ back, offset < later.baseOffset) (maxBytes : Nat) :
    Fetches (contents (front ++ tile :: back)) ((front ++ tile :: back).map Tile.baseOffset)
      offset maxBytes (fetchAcross (tile :: back) offset maxBytes []) := by
  have ahead := filed.ahead low high
  refine ⟨fun record member => ?_, fun clear => ?_, fun skips => fetchAcross_gap ahead skips [] rfl⟩
  · have lowest : ∀ first ∈ (tile :: back).head?, first.baseOffset ≤ offset := by simpa using low
    rcases mem_fetchAcross lowest member with empty | ⟨other, listed, found⟩
    · cases empty
    · exact getElem?_contents filed (List.mem_append_right _ listed) found
  · rw [filed.drop_contents low high]
    split
    · rename_i spent
      rw [fetchAcross, if_pos spent]
    rename_i unspent
    by_cases going : ∀ first ∈ (tile.remaining offset).head?, first.size ≤ maxBytes
    · rw [fetchAcross_more ahead clear (.inr going), List.nil_append]
      cases shape : tile.remaining offset with
      | nil =>
        cases back with
        | nil => rfl
        | cons next back => exact absurd shape ahead.remaining_ne_nil
      | cons message more =>
        rw [List.cons_append, fetched_eq_within (going message (by simp [shape]))]
    · obtain ⟨message, more, shape, large⟩ :
          ∃ message more, tile.remaining offset = message :: more ∧ maxBytes < message.size := by
        cases shape : tile.remaining offset with
        | nil => exact absurd (by simp [shape]) going
        | cons message more =>
          refine ⟨message, more, rfl, Nat.lt_of_not_le fun fits => going ?_⟩
          simpa [shape] using fits
      rw [fetchAcross, if_neg unspent,
        show tile.messages.drop (offset - tile.baseOffset) = message :: more from shape, shape]
      simp only [fetched, List.cons_append]
      rw [if_neg (by omega), if_pos trivial, show maxBytes - message.size = 0 by omega, within_zero]
      rfl

/-- `read_batch` on filed tiles. -/
theorem run_fetch (filed : Filed world partition.baseDir partition.maxSegmentBytes tiles)
    (small : Small (contents tiles)) (offset maxBytes : Nat) :
    ∃ records others, SameTiles tiles others ∧
      ((partition.withTiles tiles).readBatch offset maxBytes).run world =
        (.ok (.ok records, partition.withTiles others), world) ∧
      Fetches (contents tiles) (tiles.map Tile.baseOffset) offset maxBytes records := by
  obtain ⟨front, tile, back, rfl, low, high⟩ := filed.tiled.exists_floor (Nat.zero_le offset)
  obtain ⟨others, same, ran⟩ := run_readBatch filed small low high maxBytes
  exact ⟨_, others, same, ran, fetches_fetchAcross filed low high maxBytes⟩

/-- A consumer: one fetch for each budget, from where the last one ended. -/
def consume : Partition → Nat → List Nat → Program (List Record × Partition)
  | self, _, [] => pure ([], self)
  | self, offset, budget :: budgets => do
    match ← self.readBatch offset budget with
    | (.error _, self) => pure ([], self)
    | (.ok records, self) => do
      let (more, self) ← self.consume ((records.getLast?.map (·.offset + 1)).getD offset) budgets
      pure (records ++ more, self)

end Partition

/-- How many of these sizes fit a budget together. -/
def fitting : Nat → List Nat → Nat
  | _, [] => 0
  | budget, size :: sizes => if size ≤ budget then fitting (budget - size) sizes + 1 else 0

/-- How many records a fetch that skips nothing returns of those ahead. -/
def fetchCount (budget : Nat) : List Nat → Nat
  | [] => 0
  | size :: sizes => fitting (budget - size) sizes + 1

/-- No fetch of a consumer skips anything. -/
def Steady (sizes bases : List Nat) : Nat → List Nat → Prop
  | _, [] => True
  | offset, budget :: budgets =>
    ¬ Skips sizes bases offset budget ∧
      Steady sizes bases (offset + fetchCount budget (sizes.drop offset)) budgets

theorem length_within (budget : Nat) (messages : List Message) :
    (within budget messages).length = fitting budget (messages.map Message.size) := by
  induction messages generalizing budget with
  | nil => rfl
  | cons message rest ih =>
    simp only [within, List.map_cons, fitting]
    split
    · rw [List.length_cons, ih]
    · rfl

private theorem length_fetched (budget : Nat) (messages : List Message) :
    (fetched budget messages).length = fetchCount budget (messages.map Message.size) := by
  cases messages with
  | nil => rfl
  | cons message rest => rw [fetched, List.length_cons, length_within]; rfl

theorem map_content_numbered (offset : Nat) (messages : List Message) :
    (numbered offset messages).map (fun record => (record.key, record.value)) =
      messages.map Message.content := by
  induction messages generalizing offset with
  | nil => rfl
  | cons message rest ih => rw [numbered, List.map_cons, ih]; rfl

private theorem getLast?_numbered (offset : Nat) (messages : List Message) :
    ((numbered offset messages).getLast?.map (·.offset + 1)).getD offset =
      offset + messages.length := by
  cases messages using List.reverseRecOn with
  | nil => rfl
  | append_singleton messages message =>
    simp [numbered_append, numbered, Message.record, Nat.add_assoc]

/-- What a consumer has seen of the messages from `offset` on. -/
structure Consumed (messages : List Message) (bases : List Nat) (offset : Nat) (budgets : List Nat)
    (records : List Record) : Prop where
  consecutive : Consecutive offset records ↔ Steady (messages.map Message.size) bases offset budgets
  complete : Steady (messages.map Message.size) bases offset budgets → ∃ taken,
    taken <+: messages.drop offset ∧ records = numbered offset taken ∧
    min budgets.length (messages.drop offset).length ≤ taken.length

private theorem fetched_ne_nil (budget : Nat) (messages : List Message) (nonempty : messages ≠ []) :
    fetched budget messages ≠ [] := by
  cases messages with
  | nil => exact absurd rfl nonempty
  | cons message rest => exact List.cons_ne_nil _ _

private theorem Consecutive.append_iff {first second : List Record}
    (head : Consecutive offset first) :
    Consecutive offset (first ++ second) ↔ Consecutive (offset + first.length) second := by
  unfold Consecutive at head ⊢
  rw [List.map_append, head, List.length_append, ← List.range'_append_1]
  exact List.append_right_inj _

/-- One more fetch in front. -/
theorem Consumed.cons (clear : ¬ Skips (messages.map Message.size) bases offset budget)
    (later : Consumed messages bases (offset + (fetched budget (messages.drop offset)).length)
      budgets second) :
    Consumed messages bases offset (budget :: budgets)
      (numbered offset (fetched budget (messages.drop offset)) ++ second) := by
  have count := length_fetched budget (messages.drop offset)
  rw [List.map_drop] at count
  have steady : Steady (messages.map Message.size) bases offset (budget :: budgets) ↔
      Steady (messages.map Message.size) bases
        (offset + (fetched budget (messages.drop offset)).length) budgets := by
    rw [count]
    exact and_iff_right clear
  refine ⟨?_, fun all => ?_⟩
  · rw [steady, ← later.consecutive, (consecutive_numbered offset _).append_iff, length_numbered]
  · obtain ⟨more, ahead, shape, enough⟩ := later.complete (steady.mp all)
    obtain ⟨rest, whole⟩ := fetched_isPrefix budget (messages.drop offset)
    have progress := fetched_ne_nil budget (messages.drop offset)
    rw [← List.drop_drop] at ahead enough
    generalize fetched budget (messages.drop offset) = taken at *
    generalize messages.drop offset = left at *
    subst whole
    rw [List.drop_left] at ahead enough
    refine ⟨taken ++ more, (List.prefix_append_right_inj _).mpr ahead, ?_, ?_⟩
    · rw [shape, numbered_append]
    · rw [List.length_append, List.length_append, List.length_cons]
      by_cases nothing : taken ++ rest = []
      · simp_all
      · have takes := List.length_pos_iff.mpr (progress nothing)
        omega

namespace Partition
variable {world : World} {partition : Partition} {tiles : List Tile}

/-- A consumer with positive budgets sees the log in order as long as no fetch
skips, and gets at least one record with every fetch. -/
theorem run_consume (filed : Filed world partition.baseDir partition.maxSegmentBytes tiles)
    (small : Small (contents tiles)) (offset : Nat) (budgets : List Nat)
    (positive : ∀ budget ∈ budgets, 0 < budget) : ∃ records others, SameTiles tiles others ∧
      ((partition.withTiles tiles).consume offset budgets).run world =
        (.ok (records, partition.withTiles others), world) ∧
      Consumed (contents tiles) (tiles.map Tile.baseOffset) offset budgets records := by
  induction budgets generalizing tiles offset with
  | nil =>
    exact ⟨[], tiles, .refl _, rfl, ⟨fun _ => trivial, fun _ => rfl⟩,
      fun _ => ⟨[], List.nil_prefix, rfl, by simp⟩⟩
  | cons budget budgets ih =>
    obtain ⟨first, moved, same, ran, fetches⟩ := run_fetch filed small offset budget
    have bases : moved.map Tile.baseOffset = tiles.map Tile.baseOffset := by
      have pairs := congrArg (List.map Tile.baseOffset) same
      simpa [List.map_map, Function.comp_def, Tile.moved] using pairs
    obtain ⟨second, others, later, ranLater, consumed⟩ :=
      ih (filed.of_sameLogs same.sameLogs) (same.sameLogs.contents ▸ small)
        ((first.getLast?.map (·.offset + 1)).getD offset) fun other member =>
          positive other (by simp [member])
    rw [same.sameLogs.contents, bases] at consumed
    refine ⟨first ++ second, others, same.trans later, ?_, ?_⟩
    · rw [consume, Program.run_bind_of_run ran]
      simp only
      rw [Program.run_bind_of_run ranLater]
      rfl
    by_cases skips :
      Skips ((contents tiles).map Message.size) (tiles.map Tile.baseOffset) offset budget
    · obtain ⟨front, record, back, shape, jump⟩ := fetches.gap skips
      refine ⟨⟨fun all => ?_, fun steady => absurd skips steady.1⟩,
        fun steady => absurd skips steady.1⟩
      exact absurd all (not_consecutive_of_gap
        (by rw [shape, List.append_assoc, List.cons_append]) jump)
    · have spent : budget ≠ 0 := Nat.ne_of_gt (positive budget (by simp))
      have taken := fetches.gapless skips
      rw [if_neg spent] at taken
      subst taken
      rw [getLast?_numbered] at consumed
      exact consumed.cons skips

end Partition

/-- A fetch returns records of the log with consecutive offsets exactly when it
does not stop inside a segment with room left for the first record of the next
one; a consumer whose fetches never do so sees the whole log in order. -/
theorem fetch_consecutive_iff_not_skips {settings : Settings}
    (session : Session settings world partition history) (small : ∀ call ∈ history, call.1.Small) :
    ∃ log, LogRun settings.maxSegmentBytes history log ∧ partition.nextOffset = log.length ∧
      (∀ offset maxBytes, ∃ records result,
        (partition.readBatch offset maxBytes).run world = (.ok (.ok records, result), world) ∧
        (∀ record ∈ records, log[record.offset]? = some (record.key, record.value)) ∧
        (Consecutive offset records ↔
          ¬ Skips (log.map contentSize) (partition.segments.map Segment.baseOffset)
            offset maxBytes)) ∧
      ∀ budgets, (∀ budget ∈ budgets, 0 < budget) → ∃ records result,
        (partition.consume 0 budgets).run world = (.ok (records, result), world) ∧
        (Consecutive 0 records ↔
          Steady (log.map contentSize) (partition.segments.map Segment.baseOffset) 0 budgets) ∧
        (Steady (log.map contentSize) (partition.segments.map Segment.baseOffset) 0 budgets →
          log.length ≤ budgets.length →
          records.map (fun record => (record.key, record.value)) = log) := by
  obtain ⟨syncLevel, tiles, kept⟩ := session.kept
  have sizes : (logOf tiles).map contentSize = (contents tiles).map Message.size := by
    simp only [logOf, List.map_map]
    rfl
  have bases : partition.segments.map Segment.baseOffset = tiles.map Tile.baseOffset := by
    rw [kept.shape]
    simp [Partition.withBlocks, Tile.segment]
  have filed : Filed world (settings.frame syncLevel).baseDir
      (settings.frame syncLevel).maxSegmentBytes
    tiles := kept.layout.toFiled
  refine ⟨logOf tiles, kept.explained small, kept.nextOffset_eq, fun offset maxBytes => ?_,
    fun budgets positive => ?_⟩
  · obtain ⟨records, others, -, ran, fetches⟩ :=
      Partition.run_fetch filed (kept.small small) offset maxBytes
    rw [← kept.shape] at ran
    refine ⟨records, _, ran, fun record member => ?_, ?_⟩
    · obtain ⟨message, held, same⟩ := fetches.held record member
      rw [logOf, List.getElem?_map, held, same]
      rfl
    · rw [sizes, bases]
      exact fetches.consecutive_iff
  · obtain ⟨records, others, -, ran, consumed⟩ :=
      Partition.run_consume filed (kept.small small) 0 budgets positive
    rw [← kept.shape] at ran
    rw [sizes, bases]
    refine ⟨records, _, ran, consumed.consecutive, fun steady enough => ?_⟩
    obtain ⟨taken, ahead, rfl, progress⟩ := consumed.complete steady
    rw [List.drop_zero] at ahead progress
    rw [length_logOf] at enough
    rw [ahead.eq_of_length_le (by omega)]
    exact map_content_numbered 0 _

/-- Two records of sixty and a hundred bytes in the first segment, one of fifty
in the second, and a fetch of a hundred and twenty bytes. -/
private theorem skipping_session : ∃ world partition, Session ⟨"t", 0, [], 160⟩ world partition
    [(.append none (some (List.replicate 32 7)), .offset (.ok 0)),
      (.append none (some (List.replicate 72 7)), .offset (.ok 1)),
      (.append none (some (List.replicate 22 7)), .offset (.ok 2)),
      (.readBatch 0 120, .records (.ok [⟨0, 0, none, some (List.replicate 32 7)⟩,
        ⟨2, 2, none, some (List.replicate 22 7)⟩]))] :=
  Session.of_calls _ (by decide +kernel)

theorem fetch_consecutive_iff_not_skips_two_segments : ∃ world partition history log,
    Session ⟨"t", 0, [], 160⟩ world partition history ∧ LogRun 160 history log ∧
      partition.nextOffset = log.length ∧
      ∃ records result, (partition.readBatch 0 120).run world = (.ok (.ok records, result), world) ∧
        (Consecutive 0 records ↔
          ¬ Skips (log.map contentSize) (partition.segments.map Segment.baseOffset) 0 120) := by
  obtain ⟨world, partition, session⟩ := skipping_session
  obtain ⟨log, run, length, fetch, -⟩ := fetch_consecutive_iff_not_skips session (by decide)
  obtain ⟨records, result, ran, -, same⟩ := fetch 0 120
  exact ⟨world, partition, _, log, session, run, length, records, result, ran, same⟩

/-- The record between the two that are returned is skipped. -/
theorem fetch_skips_record :
    ∃ world partition history records,
      Session ⟨"t", 0, [], 160⟩ world partition history ∧ (∀ call ∈ history, call.1.Small) ∧
      history.getLast? = some (.readBatch 0 120, .records (.ok records)) ∧
      records.map Record.offset = [0, 2] ∧ ¬ Consecutive 0 records := by
  obtain ⟨world, partition, session⟩ := skipping_session
  exact ⟨world, partition, _, _, session, by decide, rfl, rfl, by decide⟩

end Ruka
