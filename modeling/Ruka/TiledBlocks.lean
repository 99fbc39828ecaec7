import Mathlib.Data.List.Basic

/-! A list kept in consecutive blocks, each with the position its first item
has in the whole. Searching the blocks by that position and then looking inside
one of them is the same as looking into the whole list. -/
namespace Ruka.TiledBlocks

variable {base : β → Nat} {items : β → List α} {front back : List β}

/-- The blocks follow each other without a gap from `start` on, there is at
least one, and only the last may be empty. -/
def Tiled (base : β → Nat) (items : β → List α) : Nat → List β → Prop
  | _, [] => False
  | start, [block] => base block = start
  | start, block :: next :: rest =>
    base block = start ∧ items block ≠ [] ∧
      Tiled base items (start + (items block).length) (next :: rest)

theorem Tiled.nonempty (tiled : Tiled base items start blocks) : blocks ≠ [] := by
  rintro rfl
  exact tiled

/-- A block starts where everything before it ends. -/
theorem Tiled.base_eq (tiled : Tiled base items start (front ++ block :: back)) :
    base block = start + (front.flatMap items).length := by
  induction front generalizing start with
  | nil => cases back with
    | nil => simpa [Tiled] using tiled
    | cons next rest => simpa using tiled.1
  | cons first rest ih =>
    have tail : Tiled base items (start + (items first).length) (rest ++ block :: back) := by
      cases rest with
      | nil => exact tiled.2.2
      | cons second rest => exact tiled.2.2
    rw [ih tail, List.flatMap_cons, List.length_append]
    omega

/-- The next block starts where this one ends. -/
theorem Tiled.next_base (tiled : Tiled base items start (front ++ block :: next :: back)) :
    base next = base block + (items block).length := by
  have here := tiled.base_eq
  have shifted : front ++ block :: next :: back = (front ++ [block]) ++ next :: back := by simp
  rw [shifted] at tiled
  have there := tiled.base_eq
  simp only [List.flatMap_append, List.flatMap_cons, List.flatMap_nil, List.append_nil,
    List.length_append] at there
  omega

/-- The last block ends where the whole list does. -/
theorem Tiled.last_end (tiled : Tiled base items start (front ++ [last])) :
    base last + (items last).length = start + ((front ++ [last]).flatMap items).length := by
  simp only [tiled.base_eq, List.flatMap_append, List.flatMap_cons, List.flatMap_nil,
    List.append_nil, List.length_append]
  omega

theorem Tiled.start_le (tiled : Tiled base items start blocks) (member : block ∈ blocks) :
    start ≤ base block := by
  obtain ⟨front, back, rfl⟩ := List.append_of_mem member
  have here := tiled.base_eq
  omega

theorem Tiled.filled (tiled : Tiled base items start (front ++ block :: next :: back)) :
    items block ≠ [] := by
  induction front generalizing start with
  | nil => exact tiled.2.1
  | cons first rest ih =>
    cases rest with
    | nil => exact ih tiled.2.2
    | cons second rest => exact ih tiled.2.2

/-- Only the last block may be empty. -/
theorem Tiled.filled_of_mem_dropLast (tiled : Tiled base items start blocks)
    (member : block ∈ blocks.dropLast) : items block ≠ [] := by
  obtain ⟨init, last, rfl⟩ : ∃ init last, blocks = init ++ [last] :=
    ⟨_, _, (List.dropLast_append_getLast tiled.nonempty).symm⟩
  rw [List.dropLast_concat] at member
  obtain ⟨front, back, rfl⟩ := List.append_of_mem member
  obtain ⟨next, rest, tail⟩ := List.exists_cons_of_ne_nil (List.append_ne_nil_of_right_ne_nil back
    (List.cons_ne_nil last []))
  rw [List.append_assoc, List.cons_append, tail] at tiled
  exact tiled.filled

theorem Tiled.sorted (tiled : Tiled base items start blocks) :
    blocks.Pairwise (fun a b => base a < base b) := by
  induction blocks generalizing start with
  | nil => exact List.Pairwise.nil
  | cons block rest ih =>
    cases rest with
    | nil => simp
    | cons next rest =>
      obtain ⟨here, filled, tail⟩ := tiled
      refine List.pairwise_cons.mpr ⟨fun later member => ?_, ih tail⟩
      have beyond := tail.start_le member
      have positive := List.length_pos_iff.mpr filled
      omega

/-- A block ends before any later one begins. -/
theorem Tiled.apart (tiled : Tiled base items start blocks) :
    blocks.Pairwise (fun a b => base a + (items a).length ≤ base b) := by
  induction blocks generalizing start with
  | nil => exact List.Pairwise.nil
  | cons block rest ih =>
    cases rest with
    | nil => simp
    | cons next rest =>
      obtain ⟨rfl, -, tail⟩ := tiled
      exact List.pairwise_cons.mpr ⟨fun later member => tail.start_le member, ih tail⟩

/-- From any block on the blocks are tiled as well. -/
theorem Tiled.from_block (tiled : Tiled base items start (front ++ block :: back)) :
    Tiled base items (base block) (block :: back) := by
  induction front generalizing start with
  | nil =>
    have here := tiled.base_eq
    simp only [List.flatMap_nil, List.length_nil, Nat.add_zero] at here
    rw [here]
    exact tiled
  | cons first rest ih =>
    cases rest with
    | nil => exact ih tiled.2.2
    | cons second rest => exact ih tiled.2.2

/-- The last block may grow or be replaced by one that starts at the same place. -/
theorem Tiled.replace_last (tiled : Tiled base items start (front ++ [last]))
    (same : base grown = base last) : Tiled base items start (front ++ [grown]) := by
  induction front generalizing start with
  | nil => exact same.trans tiled
  | cons first rest ih =>
    cases rest with
    | nil => exact ⟨tiled.1, tiled.2.1, ih tiled.2.2⟩
    | cons second rest => exact ⟨tiled.1, tiled.2.1, ih tiled.2.2⟩

/-- A block opened behind a last block that holds something. -/
theorem Tiled.snoc (tiled : Tiled base items start (front ++ [last])) (filled : items last ≠ [])
    (next : base fresh = base last + (items last).length) :
    Tiled base items start (front ++ [last] ++ [fresh]) := by
  induction front generalizing start with
  | nil =>
    have here : base last = start := tiled
    exact ⟨here, filled, by simpa [Tiled, here] using next⟩
  | cons first rest ih =>
    cases rest with
    | nil => exact ⟨tiled.1, tiled.2.1, ih tiled.2.2⟩
    | cons second rest => exact ⟨tiled.1, tiled.2.1, ih tiled.2.2⟩

/-- The same blocks as far as `seen` tells them apart. -/
def SameBlocks (seen : β → γ) (blocks others : List β) : Prop := others.map seen = blocks.map seen

namespace SameBlocks
variable {seen : β → γ} {blocks middle others : List β}

theorem refl (blocks : List β) : SameBlocks seen blocks blocks := rfl

theorem symm (same : SameBlocks seen blocks others) : SameBlocks seen others blocks := Eq.symm same

theorem trans (first : SameBlocks seen blocks middle) (second : SameBlocks seen middle others) :
    SameBlocks seen blocks others :=
  Eq.trans second first

theorem cons (same : SameBlocks seen blocks others) (twin : seen other = seen block) :
    SameBlocks seen (block :: blocks) (other :: others) := by
  rw [SameBlocks, List.map_cons, List.map_cons, twin, same]

theorem append_left (front : List β) (same : SameBlocks seen blocks others) :
    SameBlocks seen (front ++ blocks) (front ++ others) := by
  rw [SameBlocks, List.map_append, List.map_append, same]

theorem set (held : blocks[position]? = some block) (twin : seen other = seen block) :
    SameBlocks seen blocks (blocks.set position other) := by
  obtain ⟨inside, rfl⟩ := List.getElem?_eq_some_iff.mp held
  have parts : blocks = blocks.take position ++ blocks[position] ::
      blocks.drop (position + 1) := by simp
  have same := ((refl (blocks.drop (position + 1))).cons twin).append_left (blocks.take position)
  rw [← parts] at same
  rwa [List.set_eq_take_append_cons_drop, if_pos inside]

theorem exists_twin (same : SameBlocks seen blocks others) (member : other ∈ others) :
    ∃ block ∈ blocks, seen block = seen other := by
  have image : seen other ∈ others.map seen := List.mem_map_of_mem member
  rw [same] at image
  exact List.mem_map.mp image

/-- What sees less tells them apart no better. -/
theorem coarsen (same : SameBlocks seen blocks others) {coarse : β → δ} (see : γ → δ)
    (factors : ∀ block, coarse block = see (seen block)) : SameBlocks coarse blocks others := by
  obtain rfl : coarse = see ∘ seen := funext factors
  rw [SameBlocks, ← List.map_map, ← List.map_map, same]

end SameBlocks

/-- Only the positions and the items of the blocks matter. -/
theorem Tiled.of_same (tiled : Tiled base items start blocks)
    (same : SameBlocks (fun block => (base block, items block)) blocks others) :
    Tiled base items start others := by
  rw [SameBlocks] at same
  induction blocks generalizing start others with
  | nil => exact tiled.elim
  | cons block rest ih =>
    obtain ⟨other, others, rfl⟩ : ∃ other rest, others = other :: rest := by
      cases others with
      | nil => simp at same
      | cons other others => exact ⟨other, others, rfl⟩
    simp only [List.map_cons, List.cons.injEq, Prod.mk.injEq] at same
    obtain ⟨⟨sameBase, sameItems⟩, sameRest⟩ := same
    cases rest with
    | nil =>
      obtain rfl : others = [] := by simpa using sameRest
      exact sameBase.trans tiled
    | cons next rest =>
      have tail : Tiled base items _ others := ih tiled.2.2 sameRest
      cases others with
      | nil => simp at sameRest
      | cons second others =>
        refine ⟨sameBase.trans tiled.1, sameItems ▸ tiled.2.1, ?_⟩
        rw [sameItems]
        exact tail

/-- Every position from `start` on has a last block that does not start behind it. -/
theorem Tiled.exists_floor (tiled : Tiled base items start blocks) (low : start ≤ target) :
    ∃ front block back, blocks = front ++ block :: back ∧ base block ≤ target ∧
      ∀ later ∈ back, target < base later := by
  induction blocks generalizing start with
  | nil => exact tiled.elim
  | cons block rest ih =>
    cases rest with
    | nil =>
      have here : base block = start := tiled
      exact ⟨[], block, [], rfl, by omega, by simp⟩
    | cons next rest =>
      obtain ⟨here, filled, tail⟩ := tiled
      by_cases beyond : start + (items block).length ≤ target
      · obtain ⟨front, found, back, shape, floor, above⟩ := ih tail beyond
        exact ⟨block :: front, found, back, by rw [shape]; rfl, floor, above⟩
      · refine ⟨[], block, next :: rest, rfl, by omega, fun later member => ?_⟩
        have after := tail.start_le member
        omega

/-- Looking inside that block is looking into the whole list. -/
theorem Tiled.getElem?_floor (tiled : Tiled base items start (front ++ block :: back))
    (low : base block ≤ target) (high : ∀ later ∈ back, target < base later) :
    ((front ++ block :: back).flatMap items)[target - start]? =
      (items block)[target - base block]? := by
  have here := tiled.base_eq
  have position : target - start = (front.flatMap items).length + (target - base block) := by omega
  rw [List.flatMap_append, List.flatMap_cons, position, List.getElem?_append_right (by omega),
    Nat.add_sub_cancel_left]
  cases back with
  | nil => simp
  | cons next rest =>
    have bound := high next (by simp)
    have following := tiled.next_base
    exact List.getElem?_append_left (by omega)

end Ruka.TiledBlocks
