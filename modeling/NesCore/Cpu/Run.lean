import NesCore.Cpu.Step

/-!
# Runs

A run repeats steps until the processor halts, fails or is stopped by its host, which sees every
step and may change memory in between. `runFor_add` says that a run can be cut anywhere.
-/

namespace NesCore

/-- What a host sees after a step. -/
structure Tick where
  outcome : StepOutcome
  registers : Registers
  cycles : UInt64
  deriving DecidableEq, Repr

/-- What a host answers to a tick. -/
structure HostReply (η : Type) where
  /-- The host's own state from now on. -/
  host : η
  memory : Memory
  goOn : Bool

/-- A host, given by its answers. -/
def Host (η : Type) : Type := η → Tick → Memory → HostReply η

/-- A host that only watches. -/
def Host.passive : Host Unit := fun _ _ m => ⟨(), m, true⟩

/-- A processor with the state of its host. -/
structure Hosted (η : Type) where
  host : η
  cpu : Cpu

/-- Why a run ended without an error. -/
inductive StopReason
  | halted
  /-- The host did not go on. -/
  | cancelled
  deriving DecidableEq, Repr

namespace Cpu

open NesCore.Action

variable {η : Type}

/-- The tick of a step. -/
def tick (c : Cpu) (outcome : StepOutcome) : Tick := ⟨outcome, c.toRegisters, c.cycles⟩

/-- Shows a tick to the host. Halting comes before the host's wish to stop. -/
def showTick (host : Host η) (outcome : StepOutcome) :
    Action (Hosted η) CpuError (Option StopReason) :=
  ⟨fun s =>
    let reply := host s.host (s.cpu.tick outcome) s.cpu.memory
    let stop :=
      if outcome.halted then some .halted
      else if reply.goOn then none
      else some .cancelled
    ⟨[], .ok stop, ⟨reply.host, { s.cpu with memory := reply.memory }⟩⟩⟩

/-- One step of a run. No reason to stop means that the run goes on. -/
def advance (host : Host η) : Action (Hosted η) CpuError (Option StopReason) := do
  let outcome ← step.onPart Hosted.cpu fun s c => { s with cpu := c }
  showTick host outcome

/-- A run of at most the given number of steps. No reason to stop means that it could go on. -/
def runFor (host : Host η) : Nat → Action (Hosted η) CpuError (Option StopReason)
  | 0 => pure none
  | n + 1 => do
    match ← advance host with
    | some reason => return some reason
    | none => runFor host n

theorem runFor_add (host : Host η) (m n : Nat) :
    runFor host (m + n) = (do
      match ← runFor host m with
      | some reason => return some reason
      | none => runFor host n) := by
  induction m with
  | zero => simp [runFor]
  | succ m ih =>
    rw [show m + 1 + n = (m + n) + 1 by omega]
    simp only [runFor, bind_assoc]
    congr 1
    funext r
    cases r with
    | none => exact ih
    | some reason => simp

end Cpu

end NesCore
