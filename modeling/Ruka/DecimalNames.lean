import Ruka.LexicalPaths

/-! File names built from numbers and read back: decimal rendering with zero
padding, the parser of unsigned integers, and the stem and extension of a name. -/
namespace Ruka.DecimalNames
open LexicalPaths

/-- `n.to_string()`. -/
def decimal (n : Nat) : List Char := Nat.toDigits 10 n

/-- `format!("{:0width$}", n)`. -/
def padded (width n : Nat) : List Char :=
  List.replicate (width - (decimal n).length) '0' ++ decimal n

/-- `str::parse` into an unsigned integer below `bound`: an optional plus sign,
then at least one digit and nothing else. -/
def parseUint (bound : Nat) (chars : List Char) : Option Nat :=
  let digits := if chars.head? = some '+' then chars.tail else chars
  if digits ≠ [] ∧ digits.all Char.isDigit then
    if Nat.ofDigitChars 10 digits 0 < bound then some (Nat.ofDigitChars 10 digits 0) else none
  else none

/-- `Path::file_stem` and `Path::extension`: split at the last dot, unless the
name has none or starts with it. -/
def splitExtension (name : List Char) : List Char × Option (List Char) :=
  match name.reverse.dropWhile (· ≠ '.') with
  | [] => (name, none)
  | [_] => (name, none)
  | _ :: stem => (stem.reverse, some (name.reverse.takeWhile (· ≠ '.')).reverse)

theorem parseUint_lt (parsed : parseUint bound chars = some n) : n < bound := by
  unfold parseUint at parsed
  generalize (if chars.head? = some '+' then chars.tail else chars) = digits at parsed
  simp only at parsed
  split at parsed
  · split at parsed
    · cases parsed
      assumption
    · cases parsed
  · cases parsed

theorem isDigit_of_mem_decimal (member : char ∈ decimal n) : char.isDigit = true :=
  Nat.isDigit_of_mem_toDigits (by decide) (by decide) member

theorem isDigit_of_mem_padded (member : char ∈ padded width n) : char.isDigit = true := by
  rcases List.mem_append.mp member with zero | digit
  · rw [List.eq_of_mem_replicate zero]
    decide
  · exact isDigit_of_mem_decimal digit

theorem padded_ne_nil (width n : Nat) : padded width n ≠ [] := by
  simp [padded, decimal]

theorem decimal_eq_padded (n : Nat) : decimal n = padded 0 n := by
  simp [padded]

/-- Rendering is undone by parsing, with or without padding. -/
theorem parseUint_padded (width : Nat) (small : n < bound) :
    parseUint bound (padded width n) = some n := by
  have unsigned : (padded width n).head? ≠ some '+' := by
    intro plus
    have digit := isDigit_of_mem_padded (List.mem_of_mem_head? plus)
    exact absurd digit (by decide)
  have digits : (padded width n).all Char.isDigit = true :=
    List.all_eq_true.mpr fun char member => isDigit_of_mem_padded member
  have value : Nat.ofDigitChars 10 (padded width n) 0 = n := by
    rw [padded, Nat.ofDigitChars_append, Nat.ofDigitChars_replicate_zero, Nat.mul_zero, decimal,
      Nat.ofDigitChars_ten_toDigits]
  simp only [parseUint, unsigned, ↓reduceIte, digits, padded_ne_nil, ne_eq, not_false_eq_true,
    and_self, value, small]

theorem parseUint_decimal (small : n < bound) : parseUint bound (decimal n) = some n := by
  rw [decimal_eq_padded]
  exact parseUint_padded 0 small

theorem padded_injective (same : padded width n = padded width m) : n = m := by
  have left := parseUint_padded width (Nat.lt_succ_of_le (Nat.le_max_left n m))
  have right := parseUint_padded width (Nat.lt_succ_of_le (Nat.le_max_right n m))
  rw [same, right] at left
  exact (Option.some.inj left).symm

theorem decimal_injective (same : decimal n = decimal m) : n = m := by
  rw [decimal_eq_padded, decimal_eq_padded] at same
  exact padded_injective same

theorem splitExtension_dot (stem : List Char) (nonempty : stem ≠ []) (clear : '.' ∉ extension) :
    splitExtension (stem ++ '.' :: extension) = (stem, some extension) := by
  have reversed : (stem ++ '.' :: extension).reverse =
      extension.reverse ++ '.' :: stem.reverse := by
    simp
  have all : ∀ char ∈ extension.reverse, decide (char ≠ '.') = true := by
    intro char member
    have other : char ≠ '.' := fun dot => clear (dot ▸ List.mem_reverse.mp member)
    simp [other]
  unfold splitExtension
  rw [reversed, List.dropWhile_append_of_pos all, List.takeWhile_append_of_pos all]
  cases turned : stem.reverse with
  | nil => exact absurd (List.reverse_eq_nil_iff.mp turned) nonempty
  | cons last rest =>
    have back : (last :: rest).reverse = stem := by rw [← turned, List.reverse_reverse]
    simp [← back]

/-- A rendered number, alone or before an extension, is an ordinary name. -/
theorem plain_padded (width n : Nat) (extension : List Char) (clear : '/' ∉ extension) :
    Plain (padded width n ++ extension) := by
  obtain ⟨first, rest, shape⟩ : ∃ first rest, padded width n = first :: rest :=
    List.exists_cons_of_ne_nil (padded_ne_nil width n)
  have digit : first.isDigit = true := isDigit_of_mem_padded (by rw [shape]; simp)
  have notDot : first ≠ '.' := by
    rintro rfl
    exact absurd digit (by decide)
  refine ⟨by simp [shape], ?_, ?_, ?_⟩
  · intro slash
    rcases List.mem_append.mp slash with inDigits | inExtension
    · exact absurd (isDigit_of_mem_padded inDigits) (by decide)
    · exact clear inExtension
  · intro dot
    rw [shape, List.cons_append, List.cons.injEq] at dot
    exact notDot dot.1
  · intro dots
    rw [shape, List.cons_append, List.cons.injEq] at dots
    exact notDot dots.1

end Ruka.DecimalNames
