import NesCore.Cpu.Run
import NesCore.Proofs.Course.Reset
import NesCore.Proofs.Course.Success
import NesCore.Proofs.Invariant

/-!
# The lifecycle of a processor

A processor waits for a reset, runs, and stops on a `BRK` or on an error, whatever its host calls in
which order (`Call`). Where it does not run, no call but a reset changes the run state
(`state_perform_of_not_running`), and a step changes nothing at all; where it runs, the result of a
step decides (`state_of_step_ok`).

Main statement: `lifecycle`.
-/

namespace NesCore

/-- A call of the host. -/
inductive Call (η : Type)
  | reset
  | step
  /-- A run under a host in a given state, or its first steps. -/
  | run (host : Host η) (start : η) (steps : Nat)
  | triggerNmi
  | triggerIrq
  | setRegisters (r : Registers)
  | configure (config : CpuConfig)

/-- The opcode of `BRK`. -/
theorem Instruction.operation_eq_brk_iff {opcode : UInt8} {ins : Instruction}
    (h : lookup opcode = some ins) : ins.operation = .brk ↔ opcode = 0x00 := by
  have key : ∀ row ∈ table, row.operation = .brk ↔ row.opcode = 0x00 := by decide +kernel
  rw [key ins (mem_table_of_lookup h), opcode_of_lookup h]

namespace Cpu

open NesCore.Action

variable {η : Type} {c : Cpu}

/-- The processor after a call. -/
def call (c : Cpu) : Call η → Cpu
  | .reset => (reset.run c).state
  | .step => (step.run c).state
  | .run host start steps => ((runFor host steps).run ⟨start, c⟩).state.cpu
  | .triggerNmi => c.triggerNmi
  | .triggerIrq => c.triggerIrq
  | .setRegisters r => c.setRegisters r
  | .configure config => { c with config := config }

/-- The processor after a sequence of calls, of which any may fail. -/
def perform (c : Cpu) (calls : List (Call η)) : Cpu := calls.foldl call c

/-! ## Where the processor does not run -/

theorem state_step_of_not_running (h : c.state ≠ .running) : (step.run c).state = c := by
  cases hs : c.state with
  | running => exact absurd hs h
  | halted => rw [run_step_of_halted hs]
  | resetPending => rw [run_step_of_not_ready (.inl hs)]
  | faulted => rw [run_step_of_not_ready (.inr hs)]

theorem state_runFor_of_not_running (host : Host η) (n : Nat) {s : Hosted η}
    (h : s.cpu.state ≠ .running) :
    ((runFor host n).run s).state.cpu.state = s.cpu.state := by
  have hstep : Keeps (fun d : Cpu => d.state = s.cpu.state) step := fun d hd => by
    have hne : d.state ≠ .running := hd ▸ h
    rw [state_step_of_not_running hne]
    exact hd
  exact keeps_runFor hstep (fun _ _ _ hd => hd) n s rfl

theorem state_call_of_not_running (h : c.state ≠ .running) {a : Call η} (ha : a ≠ .reset) :
    (c.call a).state = c.state := by
  cases a with
  | reset => exact absurd rfl ha
  | step => exact congrArg Cpu.state (state_step_of_not_running h)
  | run host start steps => exact state_runFor_of_not_running host steps (s := ⟨start, c⟩) h
  | triggerNmi | triggerIrq | setRegisters | configure => rfl

/-- Only a reset ends a halt or a fault. -/
theorem state_perform_of_not_running (h : c.state ≠ .running) {calls : List (Call η)}
    (hcalls : .reset ∉ calls) : (c.perform calls).state = c.state := by
  induction calls generalizing c with
  | nil => rfl
  | cons a rest ih =>
    have hne : a ≠ .reset := fun ha => hcalls (ha ▸ List.mem_cons_self)
    have hcall := state_call_of_not_running h hne
    show ((c.call a).perform rest).state = c.state
    rw [ih (hcall ▸ h) fun hr => hcalls (List.mem_cons_of_mem a hr), hcall]

/-! ## Where the processor runs -/

/-- A reset succeeds from any state, since no policy rules the reset vector. -/
theorem reset_succeeds (c : Cpu) :
    (reset.run c).result = .ok () ∧ (reset.run c).state.state = .running := by
  rw [run_reset]
  exact ⟨rfl, rfl⟩

theorem state_step_of_error {e : CpuError} (h : c.state = .running)
    (he : (step.run c).result = .error e) : (step.run c).state.state = .faulted := by
  rw [run_step_of_running h] at he ⊢
  rw [result_faultedOnError] at he
  rw [faultedOnError, he]

/-- The entry of an interrupt leaves run state and settings alone. -/
theorem keeps_afterEntry (c : Cpu) :
    c.afterEntry.state = c.state ∧ c.afterEntry.config = c.config := by
  have hack : c.acknowledged.state = c.state ∧ c.acknowledged.config = c.config := by
    unfold acknowledged
    split <;> exact ⟨rfl, rfl⟩
  unfold afterEntry
  cases c.interruptDue <;> exact hack

theorem state_proceed (s : Cpu) (origin : UInt16) (ins : Instruction) (flow : Flow) :
    ((proceed origin ins flow).run s).state.state = if flow = .halt then .halted else s.state := by
  cases flow <;> rfl

/-- A step that succeeds halts the processor on a `BRK` that is set to, and there only. -/
theorem state_of_step_ok {o : StepOutcome} (h : c.state = .running)
    (ho : (step.run c).result = .ok o) :
    let s := (step.run c).state
    o.pc = c.fetchAddress ∧ o.opcode = c.fetchedOpcode ∧
      if o.opcode = 0x00 ∧ c.config.brk = .halt then
        o.halted = true ∧ s.state = .halted ∧ s.pc = o.pc ∧ s.memory.peek s.pc = 0x00
      else o.halted = false ∧ s.state = .running := by
  intro s
  obtain ⟨ins, operand, flow, hl, -, hexecute, hs, rfl⟩ := exists_of_step_ok h ho
  obtain ⟨hstate, hconfig⟩ := keeps_afterEntry c
  have hkeeps := ((composed_execute c.fetchAddress ins.operation operand).keeps c.ready).1
  have hflow := flow_eq_halt_iff hexecute
  rw [Instruction.operation_eq_brk_iff hl, show c.ready.config = c.config from hconfig] at hflow
  refine ⟨rfl, rfl, ?_⟩
  split
  · next hbrk =>
    have hhalt : flow = .halt := hflow.2 hbrk
    subst hhalt
    -- A `BRK` that halts changes nothing, so PC returns to an opcode that is still there.
    have hsame : ((execute c.fetchAddress ins.operation operand).run c.ready).state = c.ready := by
      have hmode : c.ready.config.brk = .halt := by
        rw [show c.ready.config = c.config from hconfig, hbrk.2]
      rw [(Instruction.operation_eq_brk_iff hl).2 hbrk.1, run_execute_brk_of_halt hmode]
    rw [hsame] at hs
    have hpc : (step.run c).state.pc = c.fetchAddress := by rw [hs]; rfl
    have hmemory : (step.run c).state.memory = c.afterEntry.memory := by rw [hs]; rfl
    have hhalted : (step.run c).state.state = .halted := by rw [hs]; rfl
    refine ⟨rfl, hhalted, hpc, ?_⟩
    show (step.run c).state.memory.peek (step.run c).state.pc = 0x00
    rw [hmemory, hpc]
    exact hbrk.1
  · next hbrk =>
    have hhalt : flow ≠ .halt := fun hf => hbrk (hflow.1 hf)
    refine ⟨by simp [hhalt], ?_⟩
    show (step.run c).state.state = .running
    rw [hs]
    show ((proceed c.fetchAddress ins flow).run _).state.state = .running
    rw [state_proceed, if_neg hhalt, hkeeps]
    exact hstate.trans h

/-- A step of a running processor faults it by an error, halts it on a `BRK` that is set to, or
lets it run on. -/
theorem step_cases (h : c.state = .running) :
    let s := (step.run c).state
    (∃ e, (step.run c).result = .error e ∧ s.state = .faulted) ∨
    (∃ o, (step.run c).result = .ok o ∧ o.pc = c.fetchAddress ∧ o.opcode = c.fetchedOpcode ∧
      (o.opcode = 0x00 ∧ c.config.brk = .halt) ∧
      o.halted = true ∧ s.state = .halted ∧ s.pc = o.pc ∧ s.memory.peek s.pc = 0x00) ∨
    (∃ o, (step.run c).result = .ok o ∧ o.pc = c.fetchAddress ∧ o.opcode = c.fetchedOpcode ∧
      ¬ (o.opcode = 0x00 ∧ c.config.brk = .halt) ∧ o.halted = false ∧ s.state = .running) := by
  intro s
  cases hresult : (step.run c).result with
  | error e => exact .inl ⟨e, rfl, state_step_of_error h hresult⟩
  | ok o =>
    obtain ⟨hpc, hopcode, hs⟩ := state_of_step_ok h hresult
    split at hs
    · next hbrk => exact .inr (.inl ⟨o, rfl, hpc, hopcode, hbrk, hs⟩)
    · next hbrk => exact .inr (.inr ⟨o, rfl, hpc, hopcode, hbrk, hs⟩)

/-! ## All calls -/

/-- **The lifecycle.** A new processor waits for a reset. After any calls of its host: a reset
succeeds and starts it; no other call leads out of a state in which it does not run, and a step
there changes nothing; a step of a running processor faults it exactly by an error, halts it
exactly by a `BRK` that is set to, with PC on that `BRK`, and lets it run on otherwise. -/
theorem lifecycle (memory : Memory) (config : CpuConfig) (calls : List (Call η)) :
    (ofMemory memory config).state = .resetPending ∧
    let c := (ofMemory memory config).perform calls
    ((reset.run c).result = .ok () ∧ (reset.run c).state.state = .running) ∧
    (∀ later : List (Call η), c.state ≠ .running → .reset ∉ later →
      (c.perform later).state = c.state) ∧
    (c.state = .resetPending ∨ c.state = .faulted →
      step.run c = ⟨[], .error ⟨c.pc, .notRunning⟩, c⟩) ∧
    (c.state = .halted → ∃ o, step.run c = ⟨[], .ok o, c⟩ ∧
      o.halted = true ∧ o.cycles = 0 ∧ o.interrupt = none ∧ o.pc = c.pc) ∧
    (c.state = .running →
      let s := (step.run c).state
      (s.state = .faulted ↔ ∃ e, (step.run c).result = .error e) ∧
      (s.state = .halted ↔
        ∃ o, (step.run c).result = .ok o ∧ o.opcode = 0x00 ∧ c.config.brk = .halt) ∧
      (s.state = .running ↔
        ∃ o, (step.run c).result = .ok o ∧ ¬ (o.opcode = 0x00 ∧ c.config.brk = .halt)) ∧
      ∀ o, (step.run c).result = .ok o →
        o.pc = c.fetchAddress ∧ o.opcode = c.fetchedOpcode ∧
        (o.halted = true ↔ s.state = .halted) ∧
        (s.state = .halted → s.pc = o.pc ∧ s.memory.peek s.pc = 0x00)) := by
  refine ⟨rfl, ?_⟩
  intro c
  refine ⟨reset_succeeds c, fun later h hr => state_perform_of_not_running h hr,
    run_step_of_not_ready, fun h => ?halted, fun h => ?running⟩
  case halted => exact ⟨c.haltedOutcome, run_step_of_halted h, rfl, rfl, rfl, rfl⟩
  case running =>
    intro s
    rcases step_cases h with ⟨e, hresult, hs⟩ |
      ⟨o, hresult, hpc, hopcode, hbrk, hhalted, hs, hleft⟩ |
      ⟨o, hresult, hpc, hopcode, hbrk, hhalted, hs⟩
    · have hs : s.state = .faulted := hs
      simp [hs, hresult]
    · have hs : s.state = .halted := hs
      rw [hs, hresult]
      simpa [hbrk, hhalted] using ⟨hpc, hbrk.1.symm.trans hopcode, hleft⟩
    · have hs : s.state = .running := hs
      rw [hs, hresult]
      simpa [hbrk, hhalted] using ⟨not_and.1 hbrk, hpc, hopcode⟩

end Cpu

end NesCore
