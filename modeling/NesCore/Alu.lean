import NesCore.Status

/-!
# Arithmetic on bytes

Addition and subtraction with carry, comparison, shifts and rotations. `add_value_toNat` says that
the result and the carry together are the exact sum.
-/

namespace NesCore.Alu

/-- A byte result with the carry and overflow it leaves. -/
structure Sum where
  value : UInt8
  carry : Bool
  overflow : Bool
  deriving DecidableEq, Repr

/-- Binary addition. It overflows when two operands of one sign give a result of the other. -/
def add (a v : UInt8) (carry : Bool) : Sum :=
  let total := a.toNat + v.toNat + carry.toNat
  let value := UInt8.ofNat total
  { value
    carry := 256 ≤ total
    overflow := Status.isNegative a == Status.isNegative v &&
      Status.isNegative value != Status.isNegative a }

/-- Subtraction adds the complement; a clear carry is a borrow. -/
def subtract (a v : UInt8) (carry : Bool) : Sum := add a (~~~v) carry

theorem add_value_toNat (a v : UInt8) (c : Bool) :
    (add a v c).value.toNat + 256 * (add a v c).carry.toNat = a.toNat + v.toNat + c.toNat := by
  have ha := a.toNat_lt
  have hv := v.toNat_lt
  have hc : c.toNat ≤ 1 := by cases c <;> decide
  simp only [add, UInt8.toNat_ofNat']
  by_cases h : 256 ≤ a.toNat + v.toNat + c.toNat <;> simp [h] <;> omega

/-! ## Shifts -/

/-- The four moves of a byte by one bit. -/
inductive Shift
  | left
  | right
  | rotateLeft
  | rotateRight
  deriving DecidableEq, Repr

/-- The bit that comes in: none for a shift, the carry for a rotation. -/
def Shift.incoming (carry : Bool) : Shift → Bool
  | .left | .right => false
  | .rotateLeft | .rotateRight => carry

/-- The moved byte, with the incoming bit in the place left free. -/
def Shift.value (kind : Shift) (v : UInt8) (carry : Bool) : UInt8 :=
  match kind with
  | .left | .rotateLeft => UInt8.ofNat (2 * v.toNat + (kind.incoming carry).toNat)
  | .right | .rotateRight => UInt8.ofNat (v.toNat / 2 + 128 * (kind.incoming carry).toNat)

/-- The bit that falls out. -/
def Shift.outgoing (kind : Shift) (v : UInt8) : Bool :=
  match kind with
  | .left | .rotateLeft => Status.isNegative v
  | .right | .rotateRight => v.toNat % 2 == 1

/-! ## Logic -/

/-- The bitwise combinations with the accumulator. -/
inductive Logic
  | and
  | or
  | exclusiveOr
  deriving DecidableEq, Repr

/-- Combines two bytes bit by bit. -/
def Logic.apply (kind : Logic) (a v : UInt8) : UInt8 :=
  match kind with
  | .and => a &&& v
  | .or => a ||| v
  | .exclusiveOr => a ^^^ v

end NesCore.Alu
