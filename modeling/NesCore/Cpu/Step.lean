import NesCore.Cpu.Execute
import NesCore.Instruction.Table

/-!
# Reset and step

`reset` starts the processor from any state. `step` enters a pending interrupt and executes one
instruction; an error leaves the processor faulted, a halted one stays as it is.
-/

namespace NesCore

/-- What a step did. -/
structure StepOutcome where
  /-- The address of the instruction. -/
  pc : UInt16
  opcode : UInt8
  /-- Cycles of the instruction and of an interrupt entry before it. -/
  cycles : UInt64
  halted : Bool
  /-- The interrupt entered before the instruction. -/
  interrupt : Option Interrupt
  deriving DecidableEq, Repr

/-- Where an interrupt finds its handler. -/
def Interrupt.vector : Interrupt → UInt16
  | .nmi => nmiVector
  | .irq => irqVector

namespace Cpu

open NesCore.Action

/-! ## Reset -/

/-- Clears the registers, forgets pending interrupts and starts at the reset vector. -/
def reset : Action Cpu CpuError Unit := do
  update fun c =>
    { c with
      a := 0, x := 0, y := 0
      sp := c.config.resetSp
      status := Status.afterReset
      nmiPending := false
      irqPending := false }
  let start ← (readWord resetVector).mapError (CpuError.mk resetVector)
  update fun c => { c with pc := start, cycles := 7, state := .running }
  note (.reset start (← look fun c => c.sp))

/-! ## Interrupts -/

/-- Saves PC and status and goes to the handler, which takes seven cycles. -/
def enterInterrupt (origin : UInt16) (kind : Interrupt) : Action Cpu Fault Unit := do
  let c ← look id
  pushWord origin c.pc
  push origin c.status.withoutBreak.toByte
  enterHandler kind.vector
  update fun c => { c with cycles := c.cycles + 7 }
  note (.interruptTaken kind (← look fun c => c.pc))

/-- Enters a pending interrupt. An NMI comes first; an IRQ is lost while interrupts are
disabled. -/
def serviceInterrupts (origin : UInt16) : Action Cpu Fault (Option Interrupt) := do
  let c ← look id
  if c.nmiPending then
    update fun c => { c with nmiPending := false }
    enterInterrupt origin .nmi
    return some .nmi
  else if c.irqPending then
    update fun c => { c with irqPending := false }
    if c.status.interruptDisable then
      note .irqMasked
      return none
    else
      enterInterrupt origin .irq
      return some .irq
  else return none

/-! ## Instructions -/

/-- Reads the byte at PC and moves PC behind it. -/
def fetch : Action Cpu Fault UInt8 := do
  let pc ← look fun c => c.pc
  let v ← read pc
  update fun c => { c with pc := pc + 1 }
  return v

/-- Sets PC and run state as the flow of the instruction at `origin` asks. -/
def proceed (origin : UInt16) (ins : Instruction) : Flow → Action Cpu Fault Unit
  | .next => update fun c => { c with pc := c.pc + UInt16.ofNat ins.mode.operandLength }
  | .jump => pure ()
  | .halt => do
    update fun c => { c with pc := origin, state := .halted }
    note (.haltedOnBreak origin)

/-- The cycles of an instruction, branches taken apart. -/
def instructionCycles (ins : Instruction) (operand : Operand) : UInt64 :=
  UInt64.ofNat ins.cycles + (if ins.pagePenalty && operand.crossed then 1 else 0)

/-- Executes the instruction at PC, which is `origin`; yields its opcode and flow. -/
def executeNext (origin : UInt16) : Action Cpu Fault (UInt8 × Flow) := do
  let opcode ← fetch
  match Instruction.lookup opcode with
  | none => fail (.illegalOpcode opcode)
  | some ins =>
    let operand ← resolve ins.mode
    let flow ← execute origin ins.operation operand
    proceed origin ins flow
    update fun c => { c with cycles := c.cycles + instructionCycles ins operand }
    return (opcode, flow)

/-- A step of a running processor. -/
def runningStep : Action Cpu CpuError StepOutcome := do
  let before ← look id
  let interrupt ← (serviceInterrupts before.pc).mapError (CpuError.mk before.pc)
  let origin ← look fun c => c.pc
  let (opcode, flow) ← (executeNext origin).mapError (CpuError.mk origin)
  let total ← look fun c => c.cycles
  return {
    pc := origin
    opcode := opcode
    cycles := total - before.cycles
    halted := flow == .halt
    interrupt := interrupt }

/-- What a step of a halted processor reports. -/
def haltedOutcome (c : Cpu) : StepOutcome where
  pc := c.pc
  opcode := c.memory.peek c.pc
  cycles := 0
  halted := true
  interrupt := none

/-- An outcome that an error leaves faulted. -/
def faultedOnError {α : Type} (o : Outcome Cpu CpuError α) : Outcome Cpu CpuError α :=
  match o.result with
  | .ok _ => o
  | .error _ => { o with state := { o.state with state := .faulted } }

/-- Executes one instruction, after a pending interrupt. -/
def step : Action Cpu CpuError StepOutcome :=
  ⟨fun c =>
    match c.state with
    | .running => faultedOnError (runningStep.run c)
    | .halted => ⟨[], .ok c.haltedOutcome, c⟩
    | .resetPending | .faulted => ⟨[], .error ⟨c.pc, .notRunning⟩, c⟩⟩

theorem run_step_of_halted {c : Cpu} (h : c.state = .halted) :
    step.run c = ⟨[], .ok c.haltedOutcome, c⟩ := by
  simp [step, h]

theorem run_step_of_running {c : Cpu} (h : c.state = .running) :
    step.run c = faultedOnError (runningStep.run c) := by
  simp [step, h]

theorem run_step_of_not_ready {c : Cpu} (h : c.state = .resetPending ∨ c.state = .faulted) :
    step.run c = ⟨[], .error ⟨c.pc, .notRunning⟩, c⟩ := by
  cases h with
  | inl h => simp [step, h]
  | inr h => simp [step, h]

end Cpu

end NesCore
