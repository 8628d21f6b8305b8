/-!
# The status register

Eight flags, `N V - B D I Z C` from bit 7 to bit 0. `ofByte_toByte` and `toByte_ofByte` show that
the flags and the byte hold the same information; `describe` writes them as letters.
-/

namespace NesCore

/-- A flag of the status register. -/
inductive Flag
  | negative
  | overflow
  | unused
  | brk
  | decimal
  | interruptDisable
  | zero
  | carry
  deriving DecidableEq, Repr

/-- The status register P. -/
structure Status where
  negative : Bool
  overflow : Bool
  /-- Bit 5, always set in a pushed copy. -/
  unused : Bool
  /-- Bit 4, which tells a pushed copy of `PHP` or `BRK` from one of an interrupt entry. -/
  brk : Bool
  /-- Tracked, but without influence on arithmetic. -/
  decimal : Bool
  interruptDisable : Bool
  zero : Bool
  carry : Bool
  deriving DecidableEq, Repr

namespace Status

/-! ## Bytes -/

/-- The flags of a byte. -/
def ofByte (b : UInt8) : Status where
  negative := b.toNat.testBit 7
  overflow := b.toNat.testBit 6
  unused := b.toNat.testBit 5
  brk := b.toNat.testBit 4
  decimal := b.toNat.testBit 3
  interruptDisable := b.toNat.testBit 2
  zero := b.toNat.testBit 1
  carry := b.toNat.testBit 0

/-- The value of the eight bits. -/
def toNat (p : Status) : Nat :=
  128 * p.negative.toNat + 64 * p.overflow.toNat + 32 * p.unused.toNat + 16 * p.brk.toNat
    + 8 * p.decimal.toNat + 4 * p.interruptDisable.toNat + 2 * p.zero.toNat + p.carry.toNat

/-- The flags as a byte. -/
def toByte (p : Status) : UInt8 := UInt8.ofNat p.toNat

theorem ofByte_toByte (p : Status) : ofByte p.toByte = p := by
  obtain ⟨n, v, u, b, d, i, z, c⟩ := p
  cases n <;> cases v <;> cases u <;> cases b <;> cases d <;> cases i <;> cases z <;> cases c <;> rfl

theorem toByte_ofByte (b : UInt8) : (ofByte b).toByte = b := by
  have key : ∀ n : Fin 256, (ofByte (UInt8.ofNat n)).toByte = UInt8.ofNat n := by decide +kernel
  have h := key ⟨b.toNat, b.toNat_lt⟩
  simpa using h

/-! ## Single flags -/

/-- The value of a flag. -/
def get (p : Status) : Flag → Bool
  | .negative => p.negative
  | .overflow => p.overflow
  | .unused => p.unused
  | .brk => p.brk
  | .decimal => p.decimal
  | .interruptDisable => p.interruptDisable
  | .zero => p.zero
  | .carry => p.carry

/-- The register with one flag set or cleared. -/
def set (p : Status) (f : Flag) (on : Bool) : Status :=
  match f with
  | .negative => { p with negative := on }
  | .overflow => { p with overflow := on }
  | .unused => { p with unused := on }
  | .brk => { p with brk := on }
  | .decimal => { p with decimal := on }
  | .interruptDisable => { p with interruptDisable := on }
  | .zero => { p with zero := on }
  | .carry => { p with carry := on }

theorem get_set (p : Status) (f g : Flag) (on : Bool) :
    (p.set f on).get g = if g = f then on else p.get g := by
  cases f <;> cases g <;> rfl

/-- A byte with bit 7 set. -/
def isNegative (b : UInt8) : Bool := 0x80 ≤ b

/-- Zero and negative follow a result. -/
def ofResult (p : Status) (v : UInt8) : Status :=
  { p with zero := v == 0, negative := isNegative v }

/-! ## Special values -/

/-- After a reset interrupts are disabled and the unused bit is set. -/
def afterReset : Status := ofByte 0x24

/-- The copy that `PHP` and `BRK` push. -/
def pushedBySoftware (p : Status) : Status := { p with brk := true, unused := true }

/-- The copy that an interrupt entry pushes, and what a pulled byte becomes. -/
def withoutBreak (p : Status) : Status := { p with brk := false, unused := true }

/-! ## Letters -/

/-- The letter of a flag, in upper case. -/
def letter : Flag → Char
  | .negative => 'N'
  | .overflow => 'V'
  | .unused => '-'
  | .brk => 'B'
  | .decimal => 'D'
  | .interruptDisable => 'I'
  | .zero => 'Z'
  | .carry => 'C'

/-- The flags from bit 7 to bit 0. -/
def flags : List Flag :=
  [.negative, .overflow, .unused, .brk, .decimal, .interruptDisable, .zero, .carry]

/-- One letter per flag, in upper case for a set flag and in lower case for a clear one. -/
def describe (p : Status) : String :=
  String.ofList (flags.map fun f => if p.get f then letter f else (letter f).toLower)

end Status

end NesCore
