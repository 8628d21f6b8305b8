import NesCore.Bus
import NesCore.Instruction.Operation

/-!
# The processor

The state of the processor with the memory it works on, what can go wrong in a step, and actions
that reach memory. `CpuError` pairs a fault with the address of the instruction to blame.
-/

namespace NesCore

/-! ## Faults -/

/-- What can go wrong in a step. -/
inductive Fault
  | illegalOpcode (opcode : UInt8)
  | bus (source : BusError)
  | stack (wrap : StackWrap) (sp : UInt8)
  /-- The mode gives no place to read or write. -/
  | noStorage (mode : Mode)
  /-- A reset is due. -/
  | notRunning
  deriving DecidableEq, Repr

/-- A fault of the instruction at an address. -/
structure CpuError where
  pc : UInt16
  fault : Fault
  deriving DecidableEq, Repr

/-- The text of an error. -/
def CpuError.message (e : CpuError) : String :=
  match e.fault with
  | .illegalOpcode opcode => s!"illegal opcode ${Text.byte opcode} at ${Text.word e.pc}"
  | .bus source => s!"bus fault at PC ${Text.word e.pc}: {source.message}"
  | .stack wrap sp => s!"stack {wrap.name} at ${Text.word e.pc} (SP=${Text.byte sp})"
  | .noStorage mode => s!"{mode.name} operand has no storage (PC ${Text.word e.pc})"
  | .notRunning => s!"CPU not running at ${Text.word e.pc}; reset required"

/-! ## Registers -/

namespace Registers

/-- The value of a byte register. -/
def get (r : Registers) : Register → UInt8
  | .a => r.a
  | .x => r.x
  | .y => r.y
  | .sp => r.sp

/-- The registers with another value in one of the byte registers. -/
def set (r : Registers) (register : Register) (v : UInt8) : Registers :=
  match register with
  | .a => { r with a := v }
  | .x => { r with x := v }
  | .y => { r with y := v }
  | .sp => { r with sp := v }

theorem get_set (r : Registers) (s t : Register) (v : UInt8) :
    (r.set s v).get t = if t = s then v else r.get t := by
  cases s <;> cases t <;> rfl

end Registers

/-! ## State -/

/-- A processor and its memory. -/
structure Cpu extends Registers where
  /-- Cycles since the last reset. -/
  cycles : UInt64
  memory : Memory
  config : CpuConfig
  state : RunState
  /-- An NMI waits for the next instruction. -/
  nmiPending : Bool
  /-- An IRQ waits for the next instruction. -/
  irqPending : Bool
  deriving DecidableEq

namespace Cpu

/-- A processor over a memory, which needs a reset before it runs. -/
def ofMemory (memory : Memory) (config : CpuConfig) : Cpu where
  a := 0
  x := 0
  y := 0
  sp := config.resetSp
  pc := 0
  status := Status.afterReset
  cycles := 0
  memory := memory
  config := config
  state := .resetPending
  nmiPending := false
  irqPending := false

/-- The processor with other registers. -/
def setRegisters (c : Cpu) (r : Registers) : Cpu := { c with toRegisters := r }

/-- The processor with another value in a byte register. -/
def setRegister (c : Cpu) (register : Register) (v : UInt8) : Cpu :=
  c.setRegisters (c.toRegisters.set register v)

/-- The processor with another status register. -/
def setStatus (c : Cpu) (p : Status) : Cpu := { c with status := p }

/-- The processor with zero and negative of a result. -/
def noteResult (c : Cpu) (v : UInt8) : Cpu := c.setStatus (c.status.ofResult v)

/-- The processor with an NMI waiting. -/
def triggerNmi (c : Cpu) : Cpu := { c with nmiPending := true }

/-- The processor with an IRQ waiting. -/
def triggerIrq (c : Cpu) : Cpu := { c with irqPending := true }

/-! ## Memory accesses -/

/-- A bus access by the processor. -/
def onBus {α : Type} (x : Action Memory BusError α) : Action Cpu Fault α :=
  (x.onPart Cpu.memory fun c m => { c with memory := m }).mapError Fault.bus

/-- Reads a byte. -/
def read (a : UInt16) : Action Cpu Fault UInt8 := onBus (Bus.read a)

/-- Writes a byte. -/
def write (a : UInt16) (v : UInt8) : Action Cpu Fault Unit := onBus (Bus.write a v)

/-- Reads a word. -/
def readWord (a : UInt16) : Action Cpu Fault UInt16 := onBus (Bus.readWord a)

end Cpu

end NesCore
