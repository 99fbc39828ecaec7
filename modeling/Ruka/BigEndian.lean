import Mathlib.Data.List.Basic
import Mathlib.Tactic.Positivity

/-! Fixed-width big-endian integers and the reads of a consuming byte buffer.
A read past the end of the buffer has no result: the buffers modelled over
this module stop the process there. -/
namespace Ruka.BigEndian

abbrev Bytes := List UInt8

/-- The `width` big-endian bytes of a number; higher bits are dropped, as a
narrowing conversion drops them. -/
def beBytes : Nat → Nat → Bytes
  | 0, _ => []
  | width + 1, n => UInt8.ofNat (n / 256 ^ width) :: beBytes width n

/-- The number whose big-endian bytes these are. -/
def beNat : Bytes → Nat
  | [] => 0
  | byte :: rest => byte.toNat * 256 ^ rest.length + beNat rest

@[simp] theorem length_beBytes (width n : Nat) : (beBytes width n).length = width := by
  induction width with
  | zero => rfl
  | succ width ih => simp [beBytes, ih]

theorem beNat_lt (bytes : Bytes) : beNat bytes < 256 ^ bytes.length := by
  induction bytes with
  | nil => simp [beNat]
  | cons byte rest ih =>
    have bound := byte.toNat_lt
    rw [beNat, List.length_cons, Nat.pow_succ, Nat.mul_comm (256 ^ rest.length)]
    calc byte.toNat * 256 ^ rest.length + beNat rest
        < byte.toNat * 256 ^ rest.length + 256 ^ rest.length := by omega
      _ = (byte.toNat + 1) * 256 ^ rest.length := by rw [Nat.add_mul, Nat.one_mul]
      _ ≤ 256 * 256 ^ rest.length := Nat.mul_le_mul_right _ bound

/-- Writing and reading back keeps a number modulo the field's width. -/
theorem beNat_beBytes (width n : Nat) : beNat (beBytes width n) = n % 256 ^ width := by
  induction width with
  | zero => simp [beBytes, beNat, Nat.mod_one]
  | succ width ih =>
    have step : n % 256 ^ (width + 1) = n % 256 ^ width + 256 ^ width * (n / 256 ^ width % 256) :=
      Nat.mod_pow_succ
    rw [beBytes, beNat, ih, length_beBytes, UInt8.toNat_ofNat', step, Nat.mul_comm, Nat.add_comm]

theorem beNat_beBytes_of_lt (fits : n < 256 ^ width) : beNat (beBytes width n) = n := by
  rw [beNat_beBytes, Nat.mod_eq_of_lt fits]

/-- Bits above the field's width do not reach its bytes. -/
theorem beBytes_add_high (width high n : Nat) :
    beBytes width (high * 256 ^ width + n) = beBytes width n := by
  induction width generalizing high with
  | zero => rfl
  | succ width ih =>
    have split : high * 256 ^ (width + 1) + n = (high * 256) * 256 ^ width + n := by
      rw [Nat.pow_succ, Nat.mul_assoc, Nat.mul_comm 256]
    have top : UInt8.ofNat (((high * 256) * 256 ^ width + n) / 256 ^ width) =
        UInt8.ofNat (n / 256 ^ width) := by
      apply UInt8.toNat_inj.mp
      rw [UInt8.toNat_ofNat', UInt8.toNat_ofNat', Nat.add_comm,
        Nat.add_mul_div_right _ _ (by positivity)]
      omega
    rw [split, beBytes, top, ih, beBytes]

/-- Every byte string of the field's width is the encoding of what it reads as. -/
theorem beBytes_beNat (bytes : Bytes) : beBytes bytes.length (beNat bytes) = bytes := by
  induction bytes with
  | nil => rfl
  | cons byte rest ih =>
    have top : (byte.toNat * 256 ^ rest.length + beNat rest) / 256 ^ rest.length = byte.toNat := by
      rw [Nat.add_comm, Nat.add_mul_div_right _ _ (by positivity),
        Nat.div_eq_of_lt (beNat_lt rest), Nat.zero_add]
    rw [List.length_cons, beNat, beBytes, top, UInt8.ofNat_toNat, beBytes_add_high, ih]

theorem take_beBytes_append (width n : Nat) (rest : Bytes) :
    (beBytes width n ++ rest).take width = beBytes width n :=
  List.take_left' (length_beBytes width n)

/-- Skip a field, and then more. -/
theorem drop_beBytes_append (width more n : Nat) (rest : Bytes) :
    (beBytes width n ++ rest).drop (width + more) = rest.drop more := by
  rw [← List.drop_drop, List.drop_left' (length_beBytes width n)]

/-- Take the next big-endian integer of the buffer. -/
def getUint (width : Nat) (src : Bytes) : Option (Nat × Bytes) :=
  if src.length < width then none else some (beNat (src.take width), src.drop width)

/-- Split the first `count` bytes off the buffer. -/
def splitTo (count : Nat) (src : Bytes) : Option (Bytes × Bytes) :=
  if src.length < count then none else some (src.take count, src.drop count)

theorem getUint_of_le (enough : width ≤ src.length) :
    getUint width src = some (beNat (src.take width), src.drop width) := by
  rw [getUint, if_neg (Nat.not_lt.mpr enough)]

theorem splitTo_of_le (enough : count ≤ src.length) :
    splitTo count src = some (src.take count, src.drop count) := by
  rw [splitTo, if_neg (Nat.not_lt.mpr enough)]

theorem getUint_beBytes (width n : Nat) (rest : Bytes) :
    getUint width (beBytes width n ++ rest) = some (n % 256 ^ width, rest) := by
  have enough : ¬ (beBytes width n ++ rest).length < width := by simp
  rw [getUint, if_neg enough, List.take_left' (length_beBytes width n),
    List.drop_left' (length_beBytes width n), beNat_beBytes]

theorem getUint_beBytes_of_lt (fits : n < 256 ^ width) (rest : Bytes) :
    getUint width (beBytes width n ++ rest) = some (n, rest) := by
  rw [getUint_beBytes, Nat.mod_eq_of_lt fits]

theorem splitTo_append (first rest : Bytes) :
    splitTo first.length (first ++ rest) = some (first, rest) := by
  simp [splitTo]

/-- A successful integer read names exactly the bytes it removed. -/
theorem getUint_eq_some (read : getUint width src = some (n, rest)) :
    src = beBytes width n ++ rest ∧ n < 256 ^ width := by
  unfold getUint at read
  split at read
  · cases read
  · rename_i enough
    simp only [Option.some.injEq, Prod.mk.injEq] at read
    obtain ⟨rfl, rfl⟩ := read
    have width_eq : (src.take width).length = width := by
      rw [List.length_take]
      omega
    constructor
    · have whole := beBytes_beNat (src.take width)
      rw [width_eq] at whole
      rw [whole, List.take_append_drop]
    · simpa only [width_eq] using beNat_lt (src.take width)

theorem splitTo_eq_some (read : splitTo count src = some (first, rest)) :
    src = first ++ rest ∧ first.length = count := by
  unfold splitTo at read
  split at read
  · cases read
  · rename_i enough
    simp only [Option.some.injEq, Prod.mk.injEq] at read
    obtain ⟨rfl, rfl⟩ := read
    refine ⟨(List.take_append_drop count src).symm, ?_⟩
    rw [List.length_take]
    omega

/-- A computation that went on after an integer read. -/
theorem getUint_bind_eq_some {next : Nat × Bytes → Option α}
    (read : (getUint width src).bind next = some result) :
    ∃ n rest, src = beBytes width n ++ rest ∧ n < 256 ^ width ∧ next (n, rest) = some result := by
  obtain ⟨⟨n, rest⟩, taken, later⟩ := Option.bind_eq_some_iff.mp read
  obtain ⟨shape, width⟩ := getUint_eq_some taken
  exact ⟨n, rest, shape, width, later⟩

/-- A computation that went on after a split. -/
theorem splitTo_bind_eq_some {next : Bytes × Bytes → Option α}
    (read : (splitTo count src).bind next = some result) :
    ∃ first rest, src = first ++ rest ∧
      first.length = count ∧ next (first, rest) = some result := by
  obtain ⟨⟨first, rest⟩, taken, later⟩ := Option.bind_eq_some_iff.mp read
  obtain ⟨shape, length⟩ := splitTo_eq_some taken
  exact ⟨first, rest, shape, length, later⟩

theorem getUint_bind_of_le {next : Nat × Bytes → Option α} (enough : width ≤ src.length) :
    (getUint width src).bind next = next (beNat (src.take width), src.drop width) := by
  rw [getUint_of_le enough, Option.bind_some]

theorem splitTo_bind_of_le {next : Bytes × Bytes → Option α} (enough : count ≤ src.length) :
    (splitTo count src).bind next = next (src.take count, src.drop count) := by
  rw [splitTo_of_le enough, Option.bind_some]

end Ruka.BigEndian
