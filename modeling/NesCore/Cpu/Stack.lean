import NesCore.Cpu.State

/-!
# The stack

The stack is page one, with SP on the next free byte. Pushing goes down and pulling goes up; at
the ends of the page SP wraps, which the stack check may report or refuse. Every action takes the
address of the instruction that a report names.
-/

namespace NesCore.Cpu

open NesCore.Action

/-- The address of a place on the stack. -/
def stackAddress (sp : UInt8) : UInt16 := Word.make sp 0x01

/-- What the stack check makes of a wrap. -/
def checkWrap (origin : UInt16) (wrap : StackWrap) : Action Cpu Fault Unit := do
  let c ← look id
  match c.config.stackCheck with
  | .off => pure ()
  | .warn => note (.stackWrapped wrap origin c.sp)
  | .fatal => fail (.stack wrap c.sp)

/-- Pushes a byte. -/
def push (origin : UInt16) (v : UInt8) : Action Cpu Fault Unit := do
  let sp ← look fun c => c.sp
  if sp = 0x00 then checkWrap origin .overflow
  write (stackAddress sp) v
  update fun c => c.setRegister .sp (sp - 1)

/-- Pulls a byte. -/
def pull (origin : UInt16) : Action Cpu Fault UInt8 := do
  let sp ← look fun c => c.sp
  if sp = 0xFF then checkWrap origin .underflow
  update fun c => c.setRegister .sp (sp + 1)
  read (stackAddress (sp + 1))

/-- Pushes a word, high byte first, so that the low byte lies below the high one. -/
def pushWord (origin : UInt16) (w : UInt16) : Action Cpu Fault Unit := do
  push origin (Word.high w)
  push origin (Word.low w)

/-- Pulls a word. -/
def pullWord (origin : UInt16) : Action Cpu Fault UInt16 := do
  let low ← pull origin
  let high ← pull origin
  return Word.make low high

end NesCore.Cpu
