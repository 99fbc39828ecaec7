import Mathlib.Data.List.Basic

/-! Unix paths resolved by their spelling: repeated separators and `.` vanish,
`..` drops the previous component, and an absolute operand replaces the base.
Symbolic links are outside this reading. -/
namespace Ruka.LexicalPaths

/-- What a directory can list: a component that resolution keeps as it is. -/
def Plain (chars : List Char) : Prop :=
  chars ≠ [] ∧ '/' ∉ chars ∧ chars ≠ ['.'] ∧ chars ≠ ['.', '.']

instance (chars : List Char) : Decidable (Plain chars) :=
  inferInstanceAs (Decidable (_ ∧ _ ∧ _ ∧ _))

/-- A directory entry's name. -/
abbrev Name := { chars : List Char // Plain chars }

/-- An absolute path after resolution, from the root down. -/
abbrev Path := List Name

/-- The pieces between separators, empty ones included. -/
def components : List Char → List (List Char)
  | [] => [[]]
  | char :: rest =>
    if char = '/' then [] :: components rest
    else match components rest with
      | [] => [[char]]
      | first :: others => (char :: first) :: others

/-- One component of a path being resolved. -/
def enter (path : Path) (piece : List Char) : Path :=
  if plain : Plain piece then path ++ [⟨piece, plain⟩]
  else if piece = ['.', '.'] then path.dropLast
  else path

/-- `Path::join` followed by lexical resolution. -/
def join (base : Path) (operand : List Char) : Path :=
  (components operand).foldl enter (if operand.head? = some '/' then [] else base)

theorem components_of_no_slash (clear : '/' ∉ chars) : components chars = [chars] := by
  induction chars with
  | nil => rfl
  | cons char rest ih =>
    simp only [List.mem_cons, not_or] at clear
    rw [components, if_neg (Ne.symm clear.1), ih clear.2]

@[simp] theorem enter_plain (path : Path) (plain : Plain piece) :
    enter path piece = path ++ [⟨piece, plain⟩] := by
  rw [enter, dif_pos plain]

/-- A plain operand names exactly one entry of the base directory. -/
theorem join_plain (base : Path) (plain : Plain chars) :
    join base chars = base ++ [⟨chars, plain⟩] := by
  have relative : chars.head? ≠ some '/' := by
    intro slash
    exact plain.2.1 (List.mem_of_mem_head? slash)
  rw [join, if_neg relative, components_of_no_slash plain.2.1, List.foldl_cons, List.foldl_nil,
    enter_plain base plain]

/-- What a relative spelling amounts to: how many components it climbs above
where it starts, and what it descends into from there. -/
structure Spelling where
  up : Nat
  down : Path

namespace Spelling

/-- One more piece: `..` cancels the last component gone down, if there is one. -/
def enter (spelling : Spelling) (piece : List Char) : Spelling :=
  if plain : Plain piece then ⟨spelling.up, spelling.down ++ [⟨piece, plain⟩]⟩
  else if piece = ['.', '.'] then
    if spelling.down = [] then ⟨spelling.up + 1, []⟩ else ⟨spelling.up, spelling.down.dropLast⟩
  else spelling

/-- The spelling read from a directory. -/
def readFrom (spelling : Spelling) (base : Path) : Path :=
  base.take (base.length - spelling.up) ++ spelling.down

/-- Resolving piece by piece from a directory is reading the spelling from there. -/
theorem enter_readFrom (spelling : Spelling) (base : Path) (piece : List Char) :
    LexicalPaths.enter (spelling.readFrom base) piece = (spelling.enter piece).readFrom base := by
  unfold LexicalPaths.enter enter
  split
  · simp [readFrom]
  split
  · split
    · rename_i nothing
      simp only [readFrom, nothing, List.append_nil, List.dropLast_eq_take, List.length_take,
        List.take_take]
      congr 1
      omega
    · rename_i something
      simp only [readFrom, List.dropLast_append_of_ne_nil something]
  · rfl

theorem foldl_enter_readFrom (pieces : List (List Char)) (spelling : Spelling) (base : Path) :
    pieces.foldl LexicalPaths.enter (spelling.readFrom base) =
      (pieces.foldl enter spelling).readFrom base := by
  induction pieces generalizing spelling with
  | nil => rfl
  | cons piece rest ih => rw [List.foldl_cons, List.foldl_cons, enter_readFrom, ih]

end Spelling

/-- The spelling of an operand, without regard to where it is read. -/
def spelled (operand : List Char) : Spelling := (components operand).foldl Spelling.enter ⟨0, []⟩

/-- How many components of `base` an operand climbs over; an absolute one climbs
over all of them. -/
def climbs (base : Path) (operand : List Char) : Nat :=
  if operand.head? = some '/' then base.length else min (spelled operand).up base.length

/-- What is left of the base, then what the operand goes down into. -/
theorem join_eq (base : Path) (operand : List Char) :
    join base operand = base.take (base.length - climbs base operand) ++
      (spelled operand).down := by
  unfold join climbs
  split
  · have start : (⟨0, []⟩ : Spelling).readFrom [] = [] := rfl
    rw [← start, Spelling.foldl_enter_readFrom, Nat.sub_self, List.take_zero]
    simp [Spelling.readFrom, spelled]
  · have start : (⟨0, []⟩ : Spelling).readFrom base = base := by simp [Spelling.readFrom]
    conv_lhs => rw [← start]
    rw [Spelling.foldl_enter_readFrom]
    simp only [Spelling.readFrom, spelled]
    congr 2
    omega

/-- The operand names again what it climbed over, and then `rest`. -/
def Returns (base : Path) (operand : List Char) (rest : Path) : Prop :=
  (spelled operand).down = base.drop (base.length - climbs base operand) ++ rest

/-- An operand that returns to its base names what it names behind that. -/
theorem join_eq_append_iff (base : Path) (operand : List Char) (rest : Path) :
    join base operand = base ++ rest ↔ Returns base operand rest := by
  rw [join_eq, Returns]
  conv_lhs => rhs; rw [← List.take_append_drop (base.length - climbs base operand) base,
    List.append_assoc]
  exact List.append_right_inj _

end Ruka.LexicalPaths
