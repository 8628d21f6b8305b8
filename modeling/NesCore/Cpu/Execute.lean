import NesCore.Cpu.Operand
import NesCore.Cpu.Stack

/-!
# Executing an operation

`execute` carries out an operation on a resolved operand with PC on the byte after the opcode. It
says with `Flow` where the processor goes on.
-/

namespace NesCore

/-- Where the processor goes on. -/
inductive Flow
  /-- With the following instruction. -/
  | next
  /-- Where PC points now. -/
  | jump
  | halt
  deriving DecidableEq, Repr

namespace Cpu

open NesCore.Action

/-! ## Results and flags -/

/-- Puts a result into a register, with its flags. -/
def setResult (register : Register) (v : UInt8) : Action Cpu Fault Unit :=
  update fun c => (c.setRegister register v).noteResult v

/-- Puts a sum into the accumulator, with its flags. -/
def setSum (sum : Alu.Sum) : Action Cpu Fault Unit :=
  update fun c =>
    ((c.setRegister .a sum.value).setStatus
      { c.status with carry := sum.carry, overflow := sum.overflow }).noteResult sum.value

/-- Sets the flags of a comparison: carry for no borrow, zero and negative of the difference. -/
def compareWith (register : Register) (v : UInt8) : Action Cpu Fault Unit :=
  update fun c =>
    let value := c.toRegisters.get register
    (c.setStatus { c.status with carry := v ≤ value }).noteResult (value - v)

/-- Sets the flags of a bit test. -/
def testBits (v : UInt8) : Action Cpu Fault Unit :=
  update fun c => c.setStatus
    { c.status with
      zero := c.a &&& v == 0
      negative := Status.isNegative v
      overflow := v.toNat.testBit 6 }

/-- Makes a pulled byte the status register. -/
def pullStatusByte (origin : UInt16) : Action Cpu Fault Unit := do
  let p ← pull origin
  update fun c => c.setStatus (Status.ofByte p).withoutBreak

/-! ## Leaving the sequence -/

/-- Takes a branch: one cycle, and another one for a target on another page. -/
def takeBranch (operand : Operand) : Action Cpu Fault Flow := do
  let target ← operandAddress operand
  update fun c => { c with pc := target, cycles := c.cycles + (if operand.crossed then 2 else 1) }
  return .jump

/-- Enters the handler of a vector with interrupts disabled. -/
def enterHandler (vector : UInt16) : Action Cpu Fault Unit := do
  update fun c => c.setStatus { c.status with interruptDisable := true }
  let handler ← readWord vector
  update fun c => { c with pc := handler }

/-- The software interrupt. It returns behind the byte that follows `BRK`. -/
def softwareInterrupt (origin : UInt16) : Action Cpu Fault Flow := do
  pushWord origin (origin + 2)
  let p ← look fun c => c.status
  push origin p.pushedBySoftware.toByte
  enterHandler irqVector
  return .jump

/-! ## All operations -/

/-- Carries out an operation of the instruction at `origin`. -/
def execute (origin : UInt16) (operation : Operation) (operand : Operand) :
    Action Cpu Fault Flow := do
  let c ← look id
  match operation with
  | .load register =>
    setResult register (← readOperand operand)
    return .next
  | .store register =>
    writeOperand operand (c.toRegisters.get register)
    return .next
  | .transfer source .sp =>
    update fun c => c.setRegister .sp (c.toRegisters.get source)
    return .next
  | .transfer source target =>
    setResult target (c.toRegisters.get source)
    return .next
  | .pushAccumulator =>
    push origin c.a
    return .next
  | .pushStatus =>
    push origin c.status.pushedBySoftware.toByte
    return .next
  | .pullAccumulator =>
    setResult .a (← pull origin)
    return .next
  | .pullStatus =>
    pullStatusByte origin
    return .next
  | .add =>
    setSum (Alu.add c.a (← readOperand operand) c.status.carry)
    return .next
  | .subtract =>
    setSum (Alu.subtract c.a (← readOperand operand) c.status.carry)
    return .next
  | .logic kind =>
    setResult .a (kind.apply c.a (← readOperand operand))
    return .next
  | .compare register =>
    compareWith register (← readOperand operand)
    return .next
  | .bitTest =>
    testBits (← readOperand operand)
    return .next
  | .shift kind =>
    let v ← readOperand operand
    let result := kind.value v c.status.carry
    writeOperand operand result
    update fun c =>
      (c.setStatus { c.status with carry := kind.outgoing v }).noteResult result
    return .next
  | .stepOperand direction =>
    let result := direction.next (← readOperand operand)
    writeOperand operand result
    update fun c => c.noteResult result
    return .next
  | .stepRegister register direction =>
    setResult register (direction.next (c.toRegisters.get register))
    return .next
  | .branch flag value =>
    if c.status.get flag = value then takeBranch operand else return .next
  | .jump =>
    let target ← operandAddress operand
    update fun c => { c with pc := target }
    return .jump
  | .call =>
    let target ← operandAddress operand
    pushWord origin (c.pc + 1)
    update fun c => { c with pc := target }
    return .jump
  | .returnFromCall =>
    let back ← pullWord origin
    update fun c => { c with pc := back + 1 }
    return .jump
  | .returnFromInterrupt =>
    pullStatusByte origin
    let back ← pullWord origin
    update fun c => { c with pc := back }
    return .jump
  | .brk =>
    match c.config.brk with
    | .halt => return .halt
    | .interrupt => softwareInterrupt origin
  | .setFlag flag value =>
    update fun c => c.setStatus (c.status.set flag value)
    return .next
  | .nop => return .next

end Cpu

end NesCore
