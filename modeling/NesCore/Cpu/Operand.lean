import NesCore.Cpu.State

/-!
# Operands

`resolve` finds the address of an operand with PC on the byte after the opcode; the operand itself
is read only by an operation that asks for it. Indexing within page zero and the two bytes of a
page zero pointer stay in page zero, and the pointer of an indirect jump wraps within its page.
-/

namespace NesCore

/-- A resolved operand. -/
structure Operand where
  mode : Mode
  /-- The effective address: the operand byte itself for an immediate, the target for a branch. -/
  address : Option UInt16
  /-- Indexing, or the branch if it is taken, leads to another page. -/
  crossed : Bool
  deriving DecidableEq, Repr

/-- The address that follows within the same page. -/
def Word.nextInPage (w : UInt16) : UInt16 := Word.make (Word.low w + 1) (Word.high w)

namespace Cpu

open NesCore.Action

/-- Reads the word at a page zero address, whose second byte stays in page zero. -/
def readZeroPageWord (pointer : UInt8) : Action Cpu Fault UInt16 := do
  let low ← read (Word.zeroPage pointer)
  let high ← read (Word.zeroPage (pointer + 1))
  return Word.make low high

/-- Reads the word at an address, whose second byte stays in the page of the first. -/
def readWordInPage (pointer : UInt16) : Action Cpu Fault UInt16 := do
  let low ← read pointer
  let high ← read (Word.nextInPage pointer)
  return Word.make low high

/-- Finds the operand of a mode. -/
def resolve (mode : Mode) : Action Cpu Fault Operand := do
  let c ← look id
  let plain (address : UInt16) : Operand := ⟨mode, some address, false⟩
  let indexed (base : UInt16) (index : UInt8) : Operand :=
    let address := base + Word.zeroPage index
    ⟨mode, some address, Word.crosses base address⟩
  match mode with
  | .implied | .accumulator => return ⟨mode, none, false⟩
  | .immediate => return plain c.pc
  | .zeroPage => return plain (Word.zeroPage (← read c.pc))
  | .zeroPageX => return plain (Word.zeroPage ((← read c.pc) + c.x))
  | .zeroPageY => return plain (Word.zeroPage ((← read c.pc) + c.y))
  | .absolute => return plain (← readWord c.pc)
  | .absoluteX => return indexed (← readWord c.pc) c.x
  | .absoluteY => return indexed (← readWord c.pc) c.y
  | .indirect => return plain (← readWordInPage (← readWord c.pc))
  | .indirectX => return plain (← readZeroPageWord ((← read c.pc) + c.x))
  | .indirectY => return indexed (← readZeroPageWord (← read c.pc)) c.y
  | .relative =>
    let offset ← read c.pc
    let base := c.pc + 1
    let target := Word.displaced base offset
    return ⟨mode, some target, Word.crosses base target⟩

/-- Reads the operand's byte. -/
def readOperand (operand : Operand) : Action Cpu Fault UInt8 :=
  match operand.mode, operand.address with
  | .accumulator, _ => look fun c => c.a
  | _, some address => read address
  | mode, none => fail (.noStorage mode)

/-- Writes the operand's byte. -/
def writeOperand (operand : Operand) (v : UInt8) : Action Cpu Fault Unit :=
  match operand.mode, operand.address with
  | .accumulator, _ => update fun c => c.setRegister .a v
  | .immediate, _ => fail (.noStorage .immediate)
  | _, some address => write address v
  | mode, none => fail (.noStorage mode)

/-- The operand's address, for jumps and branches. -/
def operandAddress (operand : Operand) : Action Cpu Fault UInt16 :=
  match operand.address with
  | some address => pure address
  | none => fail (.noStorage operand.mode)

end Cpu

end NesCore
