import Mathlib.Data.List.Chain

/-! Binary search of a slice by key: the halving loop has no early exit, and a
miss reports where the target would be inserted. On keys that strictly
increase both answers are exact; a target among keys without a gap is found
whatever their order is. -/
namespace Ruka.SortedSearch

/-- The window `[base, base + size)` shrinks to one element; each round drops
the half that `size / 2` counts. `rounds` bounds the halvings. -/
def narrow (key : Nat → Nat) (target : Nat) : Nat → Nat → Nat → Nat
  | 0, base, _ => base
  | rounds + 1, base, size =>
    if size ≤ 1 then base
    else narrow key target rounds (if target < key (base + size / 2) then base else base + size / 2)
      (size - size / 2)

/-- The key at a position inside the slice. -/
def keyAt (items : List α) (key : α → Nat) (position : Nat) : Nat :=
  (items[position]?.map key).getD 0

/-- `slice::binary_search_by_key`. -/
def binarySearchByKey (items : List α) (key : α → Nat) (target : Nat) : Except Nat Nat :=
  if items.length = 0 then .error 0
  else
    let base := narrow (keyAt items key) target items.length 0 items.length
    if keyAt items key base = target then .ok base
    else .error (if keyAt items key base < target then base + 1 else base)

/-- The search ends at a key not past the target whose successor is past it,
however the keys are ordered. A window of odd size keeps the key that was just
found to be past the target: it is its last one then. -/
private theorem narrow_between (key : Nat → Nat) (target count rounds base size : Nat)
    (nonempty : 0 < size) (enough : size ≤ rounds + 1) (inside : base + size ≤ count)
    (low : base = 0 ∨ key base ≤ target)
    (high : base + size = count ∨ target < key (base + size) ∨ 1 < size ∧
      target < key (base + size - 1)) : narrow key target rounds base size < count ∧
      (narrow key target rounds base size = 0 ∨ key (narrow key target rounds base size) ≤ target) ∧
      (narrow key target rounds base size + 1 = count ∨
        target < key (narrow key target rounds base size + 1)) := by
  induction rounds generalizing base size with
  | zero =>
    have one : size = 1 := by omega
    subst one
    simp only [narrow]
    exact ⟨by omega, low, by omega⟩
  | succ rounds ih =>
    unfold narrow
    split
    · rename_i small
      have one : size = 1 := by omega
      subst one
      exact ⟨by omega, low, by omega⟩
    · rename_i large
      split
      · rename_i greater
        apply ih base (size - size / 2) (by omega) (by omega) (by omega) low
        rcases Nat.mod_two_eq_zero_or_one size with even | odd
        · have half : size - size / 2 = size / 2 := by omega
          rw [half]
          exact .inr (.inl greater)
        · have half : base + (size - size / 2) - 1 = base + size / 2 := by omega
          rw [half]
          exact .inr (.inr ⟨by omega, greater⟩)
      · rename_i atMost
        have same : base + size / 2 + (size - size / 2) = base + size := by omega
        apply ih (base + size / 2) (size - size / 2) (by omega) (by omega) (by omega)
          (.inr (Nat.le_of_not_lt atMost))
        rw [same]
        rcases high with all | above | ⟨two, above⟩
        · exact .inl all
        · exact .inr (.inl above)
        · refine .inr (.inr ⟨?_, above⟩)
          -- of two keys the second was the one just looked at
          have different : base + size / 2 ≠ base + size - 1 := by
            intro equal
            rw [equal] at atMost
            exact atMost above
          omega

/-- Where no key behind one that is past the target is not, the last key not
past the target is found, if any. -/
private theorem narrow_spec (key : Nat → Nat) (target count : Nat) (nonempty : 0 < count)
    (upward : ∀ i j, i < j → j < count → target < key i → target < key j) :
    narrow key target count 0 count < count ∧
      (narrow key target count 0 count = 0 ∨ key (narrow key target count 0 count) ≤ target) ∧
      ∀ j, narrow key target count 0 count < j → j < count → target < key j := by
  obtain ⟨inside, low, high⟩ :=
    narrow_between key target count count 0 count nonempty (by omega) (by omega) (.inl rfl)
      (.inl (by omega))
  refine ⟨inside, low, fun j above below => ?_⟩
  rcases high with last | past
  · omega
  · rcases Nat.eq_or_lt_of_le (Nat.succ_le_of_lt above) with next | further
    · exact next ▸ past
    · exact upward _ j further below past

variable {items : List α} {key : α → Nat} {target position : Nat}

private theorem keyAt_increasing (sorted : items.Pairwise (fun a b => key a < key b)) :
    ∀ i j, i < j → j < items.length → keyAt items key i < keyAt items key j := by
  intro i j before inside
  have ordered := List.pairwise_iff_getElem.mp sorted i j (by omega) inside before
  simpa [keyAt, List.getElem?_eq_getElem inside,
    List.getElem?_eq_getElem (Nat.lt_trans before inside)] using ordered

theorem keyAt_eq (key : α → Nat) (found : items[position]? = some item) :
    keyAt items key position = key item := by
  simp [keyAt, found]

/-- A hit is the position of the target; a miss splits the slice into the keys
below the target and the keys above it. -/
theorem binarySearchByKey_spec (sorted : items.Pairwise (fun a b => key a < key b))
    (target : Nat) : match binarySearchByKey items key target with
    | .ok position => ∃ item, items[position]? = some item ∧ key item = target
    | .error position => position ≤ items.length ∧
        ∀ index item, items[index]? = some item →
          key item ≠ target ∧ (index < position ↔ key item < target) := by
  have increasing := keyAt_increasing sorted
  unfold binarySearchByKey
  by_cases empty : items.length = 0
  · have none : items = [] := List.eq_nil_of_length_eq_zero empty
    subst none
    simp
  · obtain ⟨inside, low, high⟩ := narrow_spec (keyAt items key) target items.length (by omega)
      fun i j before within above => Nat.lt_trans above (increasing i j before within)
    generalize narrow (keyAt items key) target items.length 0 items.length = base at inside low high
    rw [if_neg empty]
    dsimp only
    split
    · rename_i hit
      split at hit
      · rename_i same
        cases hit
        refine ⟨items.get ⟨base, inside⟩, by simp, ?_⟩
        simpa [keyAt, List.getElem?_eq_getElem inside] using same
      · cases hit
    · rename_i miss
      split at miss
      · cases miss
      · rename_i different
        cases miss
        constructor
        · split <;> omega
        · intro index item found
          have bound : index < items.length := (List.getElem?_eq_some_iff.mp found).1
          have here := keyAt_eq key found
          rw [← here]
          rcases Nat.lt_trichotomy index base with before | same | after
          · have step := increasing index base before inside
            rcases low with zero | atMost
            · omega
            · split <;> omega
          · subst same
            split <;> omega
          · have step := high index after bound
            split <;> omega

/-- The last of the entries at the target is found, when no key before it is
larger and every key behind it is; the order among them does not matter. -/
theorem binarySearchByKey_last (low : ∀ earlier ∈ front, key earlier ≤ target)
    (here : key item = target) (high : ∀ later ∈ back, target < key later) :
    binarySearchByKey (front ++ item :: back) key target = .ok front.length := by
  have keyLow : ∀ i < front.length, keyAt (front ++ item :: back) key i ≤ target := by
    intro i inside
    rw [keyAt_eq key ((List.getElem?_append_left inside).trans (List.getElem?_eq_getElem inside))]
    exact low _ (List.getElem_mem inside)
  have keyHere : keyAt (front ++ item :: back) key front.length = target := by
    have found : (front ++ item :: back)[front.length]? = some item := by simp
    rw [keyAt_eq key found, here]
  have keyHigh : ∀ i, front.length < i → i < (front ++ item :: back).length →
      target < keyAt (front ++ item :: back) key i := by
    intro i past inside
    obtain ⟨place, rfl⟩ : ∃ place, i = front.length + (place + 1) :=
      ⟨i - front.length - 1, by omega⟩
    have within : place < back.length := by
      simp only [List.length_append, List.length_cons] at inside
      omega
    have found : (front ++ item :: back)[front.length + (place + 1)]? = some back[place] := by
      rw [List.getElem?_append_right (by omega), Nat.add_sub_cancel_left, List.getElem?_cons_succ,
        List.getElem?_eq_getElem within]
    rw [keyAt_eq key found]
    exact high _ (List.getElem_mem within)
  have nonempty : 0 < (front ++ item :: back).length := by
    rw [List.length_append, List.length_cons]
    omega
  have upward : ∀ i j, i < j → j < (front ++ item :: back).length →
      target < keyAt (front ++ item :: back) key i →
      target < keyAt (front ++ item :: back) key j := by
    intro i j before inside above
    rcases Nat.lt_or_ge front.length j with past | upto
    · exact keyHigh j past inside
    · have := keyLow i (by omega)
      omega
  obtain ⟨inside, atMost, above⟩ := narrow_spec (keyAt (front ++ item :: back) key) target
    (front ++ item :: back).length nonempty upward
  unfold binarySearchByKey
  rw [if_neg (by omega)]
  generalize narrow (keyAt (front ++ item :: back) key) target (front ++ item :: back).length 0
    (front ++ item :: back).length = base at inside atMost above
  have found : base = front.length := by
    rcases Nat.lt_trichotomy base front.length with before | same | after
    · have := above front.length before (by simp)
      omega
    · exact same
    · have := keyHigh base after inside
      omega
  dsimp only
  rw [found, if_pos keyHere]

/-- No key is more than one above the key before it. -/
def Gapless (items : List α) (key : α → Nat) : Prop := items.IsChain fun a b => key b ≤ key a + 1

/-- Keys that never go up by more than one cannot pass a target between the first
and the last of them by: it is found, in whatever order they are. -/
theorem binarySearchByKey_gapless (gapless : Gapless items key)
    (first : ∀ item ∈ items.head?, key item ≤ target)
    (last : ∃ item ∈ items.getLast?, target ≤ key item) :
    ∃ position item, binarySearchByKey items key target = .ok position ∧
    items[position]? = some item ∧ key item = target := by
  obtain ⟨final, ends, reached⟩ := last
  have nonempty : items ≠ [] := by
    rintro rfl
    cases ends
  have count : 0 < items.length := List.length_pos_iff.mpr nonempty
  obtain ⟨inside, low, high⟩ :=
    narrow_between (keyAt items key) target items.length items.length 0 items.length count
      (by omega) (by omega) (.inl rfl) (.inl (by omega))
  unfold binarySearchByKey
  rw [if_neg (by omega)]
  generalize narrow (keyAt items key) target items.length 0 items.length = base at inside low high
  have held : items[base]? = some items[base] := List.getElem?_eq_getElem inside
  have atMost : key items[base] ≤ target := by
    rcases low with start | low
    · subst start
      exact first _ (by rw [List.head?_eq_getElem?]; exact held)
    · rwa [keyAt_eq key held] at low
  have atLeast : target ≤ key items[base] := by
    rcases high with last | past
    · rw [List.getLast?_eq_getElem?, show items.length - 1 = base by omega, held] at ends
      cases ends
      exact reached
    · have within : base + 1 < items.length := by
        by_contra beyond
        rw [keyAt, List.getElem?_eq_none (by omega)] at past
        exact Nat.not_lt_zero _ past
      have step := List.isChain_iff_getElem.mp gapless base within
      rw [keyAt_eq key (List.getElem?_eq_getElem within)] at past
      omega
  have found : key items[base] = target := Nat.le_antisymm atMost atLeast
  refine ⟨base, items[base], ?_, held, found⟩
  dsimp only
  rw [keyAt_eq key held, if_pos found]

/-- An indexed target is found where it is. -/
theorem binarySearchByKey_hit (sorted : items.Pairwise (fun a b => key a < key b))
    (found : items[position]? = some item) :
    binarySearchByKey items key (key item) = .ok position := by
  obtain ⟨inside, rfl⟩ := List.getElem?_eq_some_iff.mp found
  have shape : items = items.take position ++ items[position] :: items.drop (position + 1) := by
    rw [List.getElem_cons_drop, List.take_append_drop]
  have ordered := sorted
  rw [shape, List.pairwise_append, List.pairwise_cons] at ordered
  have low : ∀ earlier ∈ items.take position, key earlier ≤ key items[position] :=
    fun earlier member =>
    Nat.le_of_lt (ordered.2.2 earlier member _ List.mem_cons_self)
  have last := binarySearchByKey_last low rfl ordered.2.1.1
  rwa [← shape, List.length_take, Nat.min_eq_left (Nat.le_of_lt inside)] at last

/-- The slot before a miss holds the greatest key below the target. -/
theorem binarySearchByKey_miss (sorted : items.Pairwise (fun a b => key a < key b))
    (ran : binarySearchByKey items key target = .error position) :
    position ≤ items.length ∧ ∀ index item, items[index]? = some item →
      key item ≠ target ∧ (index < position ↔ key item < target) := by
  have spec := binarySearchByKey_spec sorted target
  rw [ran] at spec
  exact spec

theorem binarySearchByKey_ok (sorted : items.Pairwise (fun a b => key a < key b))
    (ran : binarySearchByKey items key target = .ok position) :
    ∃ item, items[position]? = some item ∧ key item = target := by
  have spec := binarySearchByKey_spec sorted target
  rw [ran] at spec
  exact spec

/-- The position of the largest key not past the target, read off a hit or the
position before a miss. -/
def floorByKey (items : List α) (key : α → Nat) (target : Nat) : Option Nat :=
  match binarySearchByKey items key target with
  | .ok position => some position
  | .error 0 => none
  | .error (position + 1) => some position

/-- On strictly increasing keys the floor is the item with the largest key not
past the target, and there is none if every key is past it. -/
theorem floorByKey_spec (sorted : items.Pairwise (fun a b => key a < key b)) (target : Nat) :
    match floorByKey items key target with
    | some position => ∃ item, items[position]? = some item ∧ key item ≤ target ∧
        ∀ other ∈ items, key other ≤ target → key other ≤ key item
    | none => ∀ item ∈ items, target < key item := by
  unfold floorByKey
  cases ran : binarySearchByKey items key target with
  | ok position =>
    obtain ⟨item, held, same⟩ := binarySearchByKey_ok sorted ran
    refine ⟨item, held, Nat.le_of_eq same, fun other _ low => ?_⟩
    rw [same]
    exact low
  | error position =>
    obtain ⟨within, split⟩ := binarySearchByKey_miss sorted ran
    cases position with
    | zero =>
      intro item member
      obtain ⟨slot, held⟩ := List.mem_iff_getElem?.mp member
      have sides := split slot item held
      omega
    | succ position =>
      have inside : position < items.length := by omega
      have held : items[position]? = some items[position] := List.getElem?_eq_getElem inside
      have below := split position _ held
      refine ⟨items[position], held, by omega, fun other member low => ?_⟩
      obtain ⟨slot, found⟩ := List.mem_iff_getElem?.mp member
      have sides := split slot other found
      have before : slot ≤ position := by omega
      have increasing := keyAt_increasing sorted
      rw [← keyAt_eq key found, ← keyAt_eq key held]
      rcases Nat.eq_or_lt_of_le before with same | earlier
      · exact Nat.le_of_eq (congrArg _ same)
      · exact Nat.le_of_lt (increasing slot position earlier inside)

theorem floorByKey_eq_some (sorted : (front ++ item :: back).Pairwise (fun a b => key a < key b))
    (low : key item ≤ target) (high : ∀ later ∈ back, target < key later) :
    floorByKey (front ++ item :: back) key target = some front.length := by
  have here : (front ++ item :: back)[front.length]? = some item := by simp
  unfold floorByKey
  split
  · rename_i position ran
    obtain ⟨twin, held, same⟩ := binarySearchByKey_ok sorted ran
    rw [List.pairwise_append, List.pairwise_cons] at sorted
    rcases Nat.lt_trichotomy position front.length with before | equal | after
    · rw [List.getElem?_append_left before] at held
      have below := sorted.2.2 twin (List.mem_of_getElem? held) item (by simp)
      omega
    · rw [equal]
    · obtain ⟨distance, rfl⟩ : ∃ distance, position = front.length + (distance + 1) :=
        ⟨position - front.length - 1, by omega⟩
      rw [List.getElem?_append_right (by omega), Nat.add_sub_cancel_left,
        List.getElem?_cons_succ] at held
      have above := high twin (List.mem_of_getElem? held)
      omega
  · rename_i ran
    have split := (binarySearchByKey_miss sorted ran).2 front.length item here
    omega
  · rename_i position ran
    obtain ⟨within, split⟩ := binarySearchByKey_miss sorted ran
    have passed := split front.length item here
    have reached : ¬ front.length < position := by
      intro further
      have bound : front.length + 1 < (front ++ item :: back).length := by omega
      have next : (front ++ item :: back)[front.length + 1]? = back[0]? := by
        rw [List.getElem?_append_right (by omega)]
        simp
      have inside : 0 < back.length := by
        simp only [List.length_append, List.length_cons] at bound
        omega
      have found : back[0]? = some back[0] := List.getElem?_eq_getElem inside
      have below := (split (front.length + 1) back[0] (next.trans found)).2.mp (by omega)
      have above := high back[0] (List.getElem_mem inside)
      omega
    have exact : position = front.length := by omega
    rw [exact]

end Ruka.SortedSearch
