import NesCore.Memory.Basic

/-!
# What an address means

An address leads to a cell, to a silent place or nowhere (`Target`); reading, peeking and writing
follow that. `peek_eq_read` says that peeking is reading with a refusal taken as 0.
-/

namespace NesCore

/-- Why memory refuses an access. -/
inductive BusError
  /-- Nothing is attached at the address. -/
  | unmapped (address : UInt16)
  deriving DecidableEq, Repr

/-- The text of a refusal. -/
def BusError.message : BusError → String
  | .unmapped address => s!"access to unmapped region at ${Text.word address}"

/-- Where an address leads. -/
inductive Target
  /-- To the cell at a raw address. -/
  | cell (address : UInt16)
  /-- To a place that reads as 0 and keeps nothing. -/
  | silent
  /-- Nowhere. -/
  | unmapped
  deriving DecidableEq, Repr

/-- Work memory of 2 KiB repeats up to `$1FFF`, the policy rules `$2000-$401F`, and from `$4020` on
every address has a cell of its own. -/
def IoPolicy.target (policy : IoPolicy) (a : UInt16) : Target :=
  if a < 0x2000 then .cell (a &&& 0x07FF)
  else if a < 0x4020 then
    match policy with
    | .flat => .cell a
    | .mirrored => if a < 0x4000 then .cell (a &&& 0x2007) else .cell a
    | .silent => .silent
    | .fault => .unmapped
  else .cell a

namespace Memory

/-- The byte that an address reads as. -/
def read (m : Memory) (a : UInt16) : Except BusError UInt8 :=
  match m.policy.target a with
  | .cell c => .ok (m.cell c)
  | .silent => .ok 0
  | .unmapped => .error (.unmapped a)

/-- The byte that an address reads as, 0 where reading is refused. -/
def peek (m : Memory) (a : UInt16) : UInt8 :=
  match m.policy.target a with
  | .cell c => m.cell c
  | .silent | .unmapped => 0

theorem peek_eq_read (m : Memory) (a : UInt16) :
    m.peek a = match m.read a with
      | .ok v => v
      | .error _ => 0 := by
  unfold peek read
  cases m.policy.target a <;> rfl

/-- The address belongs to a mapped ROM. -/
def isProtected (m : Memory) (a : UInt16) : Bool := m.romMapped && romStart ≤ a

/-- The memory after a write. A write to a mapped ROM or to a silent place leaves it as it is. -/
def write (m : Memory) (a : UInt16) (v : UInt8) : Except BusError Memory :=
  if m.isProtected a then .ok m
  else
    match m.policy.target a with
    | .cell c => .ok (m.setCell c v)
    | .silent => .ok m
    | .unmapped => .error (.unmapped a)

end Memory

end NesCore
