import NesCore.Status

/-!
# The processor's vocabulary

Registers, settings and the states of a run, apart from the memory that the processor works on.
-/

namespace NesCore

/-- The registers that a program sees. -/
structure Registers where
  a : UInt8
  x : UInt8
  y : UInt8
  sp : UInt8
  pc : UInt16
  status : Status
  deriving DecidableEq, Repr

/-- What `BRK` does. -/
inductive BrkMode
  /-- The run stops with PC on the `BRK`. -/
  | halt
  /-- The software interrupt of the hardware. -/
  | interrupt
  deriving DecidableEq, Repr

/-- What follows when a push or a pull wraps the stack pointer. -/
inductive StackCheck
  | off
  | warn
  | fatal
  deriving DecidableEq, Repr

/-- A wrap of the stack pointer. -/
inductive StackWrap
  /-- A pull with SP at `$FF`. -/
  | underflow
  /-- A push with SP at `$00`. -/
  | overflow
  deriving DecidableEq, Repr

/-- The name of a wrap in messages. -/
def StackWrap.name : StackWrap → String
  | .underflow => "underflow"
  | .overflow => "overflow"

/-- The settings of a processor. -/
structure CpuConfig where
  /-- SP after a reset; three phantom pushes leave `$FD`. -/
  resetSp : UInt8 := 0xFD
  brk : BrkMode := .halt
  stackCheck : StackCheck := .warn
  deriving DecidableEq, Repr

/-- How far a run has come. -/
inductive RunState
  /-- Built but not reset yet. -/
  | resetPending
  | running
  /-- Stopped on a `BRK`. -/
  | halted
  /-- Stopped by an error; only a reset recovers. -/
  | faulted
  deriving DecidableEq, Repr

/-- The two interrupts from outside. -/
inductive Interrupt
  | nmi
  | irq
  deriving DecidableEq, Repr

/-- The name of an interrupt in messages. -/
def Interrupt.name : Interrupt → String
  | .nmi => "NMI"
  | .irq => "IRQ"

end NesCore
