import Mathlib.Data.Nat.Digits.Lemmas
import NesCore.Alu

/-!
# Bytes as numbers

A byte is a number or, in two's complement, a signed number; so is a list of bytes, low byte first.
`value_cons` and `signed_cons` take a list apart at its low byte, `value_append` anywhere;
`value_complement` and `signed_complement` say what complementing all bits makes of it. The sum of
two bytes and a carry overflows exactly if the sum of the signed numbers has no place in a byte
(`overflow_add_iff`).
-/

namespace NesCore

namespace Bytes

/-! ## Single bytes -/

/-- The signed number of a byte. -/
theorem toInt_toInt8 (b : UInt8) :
    b.toInt8.toInt = if b.toNat < 128 then (b.toNat : Int) else b.toNat - 256 := by
  have hcond : b.toInt8.toInt =
      if 2 * b.toNat < 256 then (b.toNat : Int) else b.toNat - (256 : Nat) :=
    BitVec.toInt_eq_toNat_cond b.toBitVec
  rw [hcond]
  split_ifs <;> omega

theorem toNat_complement (b : UInt8) : (~~~b).toNat = 255 - b.toNat := by
  rw [UInt8.toNat_not]
  rfl

theorem isNegative_iff {b : UInt8} : Status.isNegative b = true ↔ 128 ≤ b.toNat := by
  rw [Status.isNegative, decide_eq_true_iff, UInt8.le_iff_toNat_le]
  rfl

/-- A sum overflows exactly if the sum of the signed numbers has no place in a byte. -/
theorem overflow_add_iff {a v : UInt8} {carry : Bool} :
    (Alu.add a v carry).overflow = true ↔
      ¬ (-128 ≤ a.toInt8.toInt + v.toInt8.toInt + carry.toNat ∧
        a.toInt8.toInt + v.toInt8.toInt + carry.toNat ≤ 127) := by
  have ha := a.toNat_lt
  have hv := v.toNat_lt
  have hvalue : (Alu.add a v carry).value.toNat = (a.toNat + v.toNat + carry.toNat) % 256 := by
    simp [Alu.add]
  have hcarry : carry.toNat ≤ 1 := Bool.toNat_le carry
  have hsigns : (Alu.add a v carry).overflow = true ↔
      (128 ≤ a.toNat ↔ 128 ≤ v.toNat) ∧
        ¬ (128 ≤ (Alu.add a v carry).value.toNat ↔ 128 ≤ a.toNat) := by
    rw [← isNegative_iff, ← isNegative_iff, ← isNegative_iff, ← Bool.eq_iff_iff,
      ← Bool.eq_iff_iff]
    simp [Alu.add]
  rw [hsigns, hvalue, toInt_toInt8, toInt_toInt8]
  split_ifs <;> omega

theorem toInt_complement (b : UInt8) : (~~~b).toInt8.toInt = -1 - b.toInt8.toInt := by
  have hb := b.toNat_lt
  rw [toInt_toInt8, toInt_toInt8, toNat_complement]
  split_ifs <;> omega

/-- The sign of a difference is that of the signed numbers, unless it overflows. -/
theorem negative_ne_overflow_iff {a v : UInt8} :
    Status.isNegative (Alu.subtract a v true).value ≠ (Alu.subtract a v true).overflow ↔
      a.toInt8.toInt < v.toInt8.toInt := by
  have ha := a.toNat_lt
  have hv := v.toNat_lt
  have hoverflow : (Alu.subtract a v true).overflow = true ↔ _ := overflow_add_iff
  have hvalue : (Alu.subtract a v true).value.toNat = (a.toNat + (255 - v.toNat) + 1) % 256 := by
    simp [Alu.subtract, Alu.add]
  rw [toInt_complement] at hoverflow
  rw [ne_eq, Bool.eq_iff_iff, isNegative_iff, hoverflow, hvalue, toInt_toInt8, toInt_toInt8]
  simp only [Bool.toNat_true, Nat.cast_one]
  split_ifs <;> omega

/-! ## Lists of bytes -/

/-- The number that bytes stand for, low byte first. -/
def value (bytes : List UInt8) : Nat := Nat.ofDigits 256 (bytes.map UInt8.toNat)

/-- The signed number that bytes stand for in two's complement. -/
def signed (bytes : List UInt8) : Int := Int.bmod (value bytes) (256 ^ bytes.length)

/-- The number has a place in `n` bytes of two's complement. -/
def InRange (n : Nat) (x : Int) : Prop :=
  -(2 : Int) ^ (8 * n - 1) ≤ x ∧ x ≤ (2 : Int) ^ (8 * n - 1) - 1

@[simp] theorem value_nil : value [] = 0 := rfl

theorem value_cons (b : UInt8) (bytes : List UInt8) :
    value (b :: bytes) = b.toNat + 256 * value bytes := Nat.ofDigits_cons

theorem value_lt (bytes : List UInt8) : value bytes < 256 ^ bytes.length := by
  induction bytes with
  | nil => decide
  | cons b bytes ih =>
    have hb := b.toNat_lt
    rw [value_cons, List.length_cons, Nat.pow_succ]
    omega

theorem value_append (low high : List UInt8) :
    value (low ++ high) = value low + 256 ^ low.length * value high := by
  rw [value, List.map_append, Nat.ofDigits_append, List.length_map]
  rfl

/-- As many bytes of the same number are the same bytes. -/
theorem value_inj {xs ys : List UInt8} (hlength : xs.length = ys.length)
    (h : value xs = value ys) : xs = ys := by
  induction xs generalizing ys with
  | nil => exact (List.length_eq_zero_iff.1 hlength.symm).symm
  | cons x xs ih =>
    cases ys with
    | nil => cases hlength
    | cons y ys =>
      have hx := x.toNat_lt
      have hy := y.toNat_lt
      rw [value_cons, value_cons] at h
      have hlow : x = y := UInt8.toNat_inj.1 (by omega)
      rw [hlow, ih (Nat.succ.inj hlength) (by omega)]

/-- Two's complement splits the range in halves. -/
theorem pow_eq_halves {n : Nat} (h : 0 < n) : 256 ^ n = 2 * 2 ^ (8 * n - 1) := by
  have hexponent : 8 * n = 8 * n - 1 + 1 := by omega
  calc 256 ^ n = 2 ^ (8 * n) := by rw [show (256 : Nat) = 2 ^ 8 by rfl, ← Nat.pow_mul]
    _ = 2 * 2 ^ (8 * n - 1) := by rw [hexponent, Nat.pow_succ, Nat.mul_comm]; rfl

theorem half_succ {n : Nat} (h : 0 < n) : 2 ^ (8 * (n + 1) - 1) = 256 * 2 ^ (8 * n - 1) := by
  have hexponent : 8 * (n + 1) - 1 = 8 + (8 * n - 1) := by omega
  rw [hexponent, Nat.pow_add]

/-- From the upper half of the range on the numbers are negative. -/
theorem signed_eq {bytes : List UInt8} (h : bytes ≠ []) :
    signed bytes =
      if value bytes < 2 ^ (8 * bytes.length - 1) then (value bytes : Int)
      else value bytes - 2 * (2 ^ (8 * bytes.length - 1) : Nat) := by
  have hlt := value_lt bytes
  have hhalves := pow_eq_halves (List.length_pos_iff.2 h)
  rw [hhalves] at hlt
  rw [signed, hhalves, Int.bmod_def]
  generalize 2 ^ (8 * bytes.length - 1) = half at hlt ⊢
  have hmod : (value bytes : Int) % (2 * half : Nat) = value bytes :=
    Int.emod_eq_of_lt (by omega) (by omega)
  rw [hmod]
  split_ifs <;> omega

theorem signed_singleton (b : UInt8) : signed [b] = b.toInt8.toInt := by
  rw [signed_eq (List.cons_ne_nil b []), toInt_toInt8, value_cons]
  rfl

/-- The low byte counts as it is, the sign is in the others. -/
theorem signed_cons (b : UInt8) {bytes : List UInt8} (h : bytes ≠ []) :
    signed (b :: bytes) = b.toNat + 256 * signed bytes := by
  have hb := b.toNat_lt
  have hhalf := half_succ (List.length_pos_iff.2 h)
  rw [signed_eq (List.cons_ne_nil b bytes), signed_eq h, value_cons, List.length_cons, hhalf]
  generalize 2 ^ (8 * bytes.length - 1) = half
  split_ifs <;> omega

theorem inRange_one {x : Int} : InRange 1 x ↔ -128 ≤ x ∧ x ≤ 127 := by
  unfold InRange
  norm_num

/-- A low byte does not lead out of a range. -/
theorem inRange_cons {n : Nat} (h : 0 < n) (b : UInt8) {x : Int} :
    InRange (n + 1) (b.toNat + 256 * x) ↔ InRange n x := by
  have hb := b.toNat_lt
  have hhalf : (2 : Int) ^ (8 * (n + 1) - 1) = 256 * 2 ^ (8 * n - 1) := by
    exact_mod_cast half_succ h
  unfold InRange
  rw [hhalf]
  generalize (2 : Int) ^ (8 * n - 1) = half
  omega

/-! ## Complements -/

/-- All bits of all bytes complemented. -/
def complement (bytes : List UInt8) : List UInt8 := bytes.map (~~~·)

theorem value_complement (bytes : List UInt8) :
    value (complement bytes) + value bytes + 1 = 256 ^ bytes.length := by
  induction bytes with
  | nil => rfl
  | cons b bytes ih =>
    have hb := b.toNat_lt
    have hcomplement : complement (b :: bytes) = ~~~b :: complement bytes := rfl
    rw [hcomplement, value_cons, value_cons, toNat_complement, List.length_cons, Nat.pow_succ]
    omega

theorem signed_complement {bytes : List UInt8} (h : bytes ≠ []) :
    signed (complement bytes) = -1 - signed bytes := by
  have hne : complement bytes ≠ [] := fun hc => h (List.map_eq_nil_iff.1 hc)
  have hlength : (complement bytes).length = bytes.length := List.length_map _
  have hsum := value_complement bytes
  rw [pow_eq_halves (List.length_pos_iff.2 h)] at hsum
  rw [signed_eq hne, signed_eq h, hlength]
  generalize 2 ^ (8 * bytes.length - 1) = half at hsum ⊢
  split_ifs <;> omega

end Bytes

end NesCore
