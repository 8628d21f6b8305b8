import NesCore.Proofs.Course.Success
import NesCore.Proofs.Recorded
import NesCore.Proofs.StackPage

/-!
# The footprint of an instruction

What an instruction may change is told by its mnemonic, its mode and the `BRK` setting: registers
and flags by lists of mnemonics, memory by the place of the operand and by the number of pushes
(`Footprint`). Operations have short lists of their own (`Operation.registers`, `Operation.flags`,
`Operation.pushCount`), which `effect` stays within; the table is checked against them once.

Main statement: `footprint_of_step`.
-/

namespace NesCore

/-! ## What operations set -/

/-- The byte registers that an operation sets. -/
def Operation.registers (operation : Operation) (mode : Mode) (brk : BrkMode) : List Register :=
  match operation with
  | .load target | .transfer _ target | .stepRegister target _ => [target]
  | .add | .subtract | .logic _ => [.a]
  | .store _ | .shift _ | .stepOperand _ =>
    match mode with
    | .implied | .accumulator => [.a]
    | _ => []
  | .pullAccumulator => [.a, .sp]
  | .pushAccumulator | .pushStatus | .pullStatus | .call | .returnFromCall
  | .returnFromInterrupt => [.sp]
  | .brk =>
    match brk with
    | .halt => []
    | .interrupt => [.sp]
  | .compare _ | .bitTest | .branch .. | .jump | .setFlag .. | .nop => []

/-- The flags that an operation sets. -/
def Operation.flags (operation : Operation) (brk : BrkMode) : List Flag :=
  match operation with
  | .pullStatus | .returnFromInterrupt => Status.flags
  | .add | .subtract => [.negative, .overflow, .zero, .carry]
  | .bitTest => [.negative, .overflow, .zero]
  | .compare _ | .shift _ => [.negative, .zero, .carry]
  | .load _ | .pullAccumulator | .logic _ | .stepOperand _ | .stepRegister .. => [.negative, .zero]
  | .transfer _ target =>
    match target with
    | .sp => []
    | _ => [.negative, .zero]
  | .setFlag flag _ => [flag]
  | .brk =>
    match brk with
    | .halt => []
    | .interrupt => [.interruptDisable]
  | .store _ | .pushAccumulator | .pushStatus | .branch .. | .jump | .call | .returnFromCall
  | .nop => []

/-- The number of bytes that an operation pushes. -/
def Operation.pushCount (operation : Operation) (brk : BrkMode) : Nat :=
  match operation with
  | .pushAccumulator | .pushStatus => 1
  | .call => 2
  | .brk =>
    match brk with
    | .halt => 0
    | .interrupt => 3
  | _ => 0

/-! ## What instructions may change -/

namespace Mnemonic

/-- Shifts and rotates. -/
def shifts : List Mnemonic := [.asl, .lsr, .rol, .ror]

/-- The instructions that put a byte into their operand. -/
def writers : List Mnemonic := [.sta, .stx, .sty, .asl, .lsr, .rol, .ror, .inc, .dec]

/-- The instructions that have no result, and so leave N and Z alone. -/
def withoutResult : List Mnemonic :=
  [.sta, .stx, .sty, .bcc, .bcs, .beq, .bmi, .bne, .bpl, .bvc, .bvs, .jmp, .jsr, .rts, .pha, .php,
    .clc, .sec, .cli, .sei, .cld, .sed, .clv, .txs, .nop, .brk]

/-- The instructions that may change a flag. -/
def MayChange (m : Mnemonic) (brk : BrkMode) : Flag → Prop
  | .carry => m ∈ [.adc, .sbc, .cmp, .cpx, .cpy, .clc, .sec, .plp, .rti] ∨ m ∈ shifts
  | .overflow => m ∈ [.adc, .sbc, .bit, .clv, .plp, .rti]
  | .decimal => m ∈ [.cld, .sed, .plp, .rti]
  | .interruptDisable => m ∈ [.cli, .sei, .plp, .rti] ∨ m = .brk ∧ brk = .interrupt
  | .unused | .brk => m ∈ [.plp, .rti]
  | .negative | .zero => m ∉ withoutResult

theorem mayChange_of_mem_flags {m : Mnemonic} {brk : BrkMode} {f : Flag}
    (h : f ∈ m.operation.flags brk) : m.MayChange brk f := by
  revert h
  cases brk <;> cases f <;> simp only [MayChange] <;> cases m <;> decide

theorem mem_writers_of_access {m : Mnemonic} (hnone : m.operation.access ≠ .none)
    (hread : m.operation.access ≠ .read) : m ∈ writers := by
  revert hnone hread
  cases m <;> decide

end Mnemonic

/-- The instructions that may change a register. -/
def Instruction.MayChange (ins : Instruction) (brk : BrkMode) : Register → Prop
  | .a =>
    ins.mnemonic ∈ [.lda, .txa, .tya, .pla, .adc, .sbc, .and, .ora, .eor] ∨
      ins.mnemonic ∈ Mnemonic.shifts ∧ ins.mode = .accumulator
  | .x => ins.mnemonic ∈ [.ldx, .tax, .tsx, .inx, .dex]
  | .y => ins.mnemonic ∈ [.ldy, .tay, .iny, .dey]
  | .sp =>
    ins.mnemonic ∈ [.txs, .pha, .php, .pla, .plp, .jsr, .rts, .rti] ∨
      ins.mnemonic = .brk ∧ brk = .interrupt

theorem Instruction.mayChange_of_mem_registers {ins : Instruction} {brk : BrkMode} {r : Register}
    (hins : ins ∈ table) (h : r ∈ ins.operation.registers ins.mode brk) :
    ins.MayChange brk r := by
  revert ins
  cases brk <;> cases r <;> simp only [MayChange] <;> decide +kernel

/-- A result is seen in N and Z only. -/
theorem Status.get_ofResult (p : Status) (v : UInt8) {f : Flag} (h : f ∉ [.negative, .zero]) :
    (p.ofResult v).get f = p.get f := by
  cases f with
  | negative | zero => simp at h
  | _ => rfl

namespace Cpu

variable {c : Cpu} {operation : Operation} {mode : Mode} {ins : Instruction} {o : StepOutcome}

/-- What a step of an instruction may change of registers, flags and memory. -/
structure Footprint (c : Cpu) (ins : Instruction) (s : Cpu) : Prop where
  registers : ∀ r, s.toRegisters.get r ≠ c.toRegisters.get r → ins.MayChange c.config.brk r
  flags : ∀ f, s.status.get f ≠ c.status.get f → ins.mnemonic.MayChange c.config.brk f
  /-- One byte at the operand, and those that are pushed. -/
  cells : ∀ a, s.memory.cell a ≠ c.memory.cell a →
    (ins.mnemonic ∈ Mnemonic.writers ∧ ∃ e, c.afterOpcode.effectiveAddress ins.mode = some e ∧
      a = c.memory.policy.fold e) ∨
    ∃ i < ins.operation.pushCount c.config.brk, a = stackAddress (c.sp - UInt8.ofNat i)

/-! ## Effects -/

theorem get_withResult (c : Cpu) (target r : Register) (v : UInt8) :
    (c.withResult target v).toRegisters.get r = if r = target then v else c.toRegisters.get r := by
  cases target <;> cases r <;> rfl

theorem get_setStatus (c : Cpu) (p : Status) (r : Register) :
    (c.setStatus p).toRegisters.get r = c.toRegisters.get r := by
  cases r <;> rfl

/-- Pushes set no register but SP. -/
theorem get_pushed (c : Cpu) (bytes : List UInt8) {r : Register} (h : r ≠ .sp) :
    (c.pushed bytes).toRegisters.get r = c.toRegisters.get r := by
  rw [pushed_eq]
  cases r with
  | sp => exact absurd rfl h
  | a | x | y => rfl

/-- An operand that is put back is a register only if it has no address. -/
theorem get_withOperand {r : Register} (source : Register) (v : UInt8)
    (h : r ∉ (Operation.store source).registers mode c.config.brk) :
    (c.withOperand mode v).toRegisters.get r = c.toRegisters.get r := by
  cases mode with
  | implied | accumulator =>
    exact (Registers.get_set _ .a r v).trans (if_neg (List.mem_singleton.not.1 h))
  | _ => rfl

/-- An operand that is put back changes no cell but its own. -/
theorem cell_withOperand {a : UInt16} (v : UInt8)
    (h : ∀ e, c.effectiveAddress mode = some e → a ≠ c.memory.policy.fold e) :
    (c.withOperand mode v).memory.cell a = c.memory.cell a := by
  unfold withOperand
  cases he : c.effectiveAddress mode with
  | none => rfl
  | some e => exact (Memory.cell_written ..).trans (if_neg fun ha => h e he ha.2.symm)

theorem status_withResult (c : Cpu) (target : Register) (v : UInt8) :
    (c.withResult target v).status = c.status.ofResult v := by
  cases target <;> rfl

theorem status_withOperand (c : Cpu) (mode : Mode) (v : UInt8) :
    (c.withOperand mode v).status = c.status := by
  unfold withOperand
  cases c.effectiveAddress mode <;> rfl

theorem exists_effect_jump (c : Cpu) (mode : Mode) :
    ∃ pc, c.effect .jump mode = { c with pc := pc } := by
  rw [effect]
  cases c.effectiveAddress mode <;> exact ⟨_, rfl⟩

theorem exists_effect_call (c : Cpu) (mode : Mode) :
    ∃ pc, c.effect .call mode =
      { c.pushed [Word.high (c.pc + 1), Word.low (c.pc + 1)] with pc := pc } := by
  rw [effect]
  cases c.effectiveAddress mode <;> exact ⟨_, rfl⟩

theorem exists_effect_branch (c : Cpu) (flag : Flag) (value : Bool) (mode : Mode) :
    ∃ pc cycles, c.effect (.branch flag value) mode = { c with pc := pc, cycles := cycles } := by
  rw [effect]
  split
  · cases c.effectiveAddress mode <;> exact ⟨_, _, rfl⟩
  · exact ⟨_, _, rfl⟩

/-- An operation leaves all byte registers alone but those that it sets. -/
theorem get_effect {r : Register} (h : r ∉ operation.registers mode c.config.brk) :
    (c.effect operation mode).toRegisters.get r = c.toRegisters.get r := by
  cases operation with
  | load target | stepRegister target =>
    exact (get_withResult ..).trans (if_neg (List.mem_singleton.not.1 h))
  | transfer source target =>
    have hr : r ≠ target := List.mem_singleton.not.1 h
    cases target with
    | sp => exact (Registers.get_set ..).trans (if_neg hr)
    | a | x | y => exact (get_withResult ..).trans (if_neg hr)
  | store source => exact get_withOperand source _ h
  | stepOperand => exact (get_setStatus ..).trans (get_withOperand .a _ h)
  | shift => exact (get_setStatus ..).trans ((get_setStatus ..).trans (get_withOperand .a _ h))
  | add | subtract | logic =>
    cases r with
    | a => exact absurd (List.mem_singleton.2 rfl) h
    | x | y | sp => rfl
  | pullAccumulator =>
    cases r with
    | a | sp => simp [Operation.registers] at h
    | x | y => rfl
  | pullStatus | returnFromCall | returnFromInterrupt =>
    cases r with
    | sp => exact absurd (List.mem_singleton.2 rfl) h
    | a | x | y => rfl
  | pushAccumulator | pushStatus => exact c.get_pushed _ (List.mem_singleton.not.1 h)
  | call =>
    obtain ⟨pc, hs⟩ := c.exists_effect_call mode
    rw [hs, ← c.get_pushed [Word.high (c.pc + 1), Word.low (c.pc + 1)] (List.mem_singleton.not.1 h)]
    cases r <;> rfl
  | brk =>
    rw [effect]
    cases hbrk : c.config.brk with
    | halt => rfl
    | interrupt =>
      rw [hbrk] at h
      rw [← c.get_pushed c.savedBySoftware (List.mem_singleton.not.1 h)]
      cases r <;> rfl
  | branch flag value =>
    obtain ⟨pc, cycles, hs⟩ := c.exists_effect_branch flag value mode
    rw [hs]
    cases r <;> rfl
  | jump =>
    obtain ⟨pc, hs⟩ := c.exists_effect_jump mode
    rw [hs]
    cases r <;> rfl
  | compare | bitTest | setFlag | nop => cases r <;> rfl

/-- An operation leaves all flags alone but those that it sets. -/
theorem get_status_effect {f : Flag} (h : f ∉ operation.flags c.config.brk) :
    (c.effect operation mode).status.get f = c.status.get f := by
  cases operation with
  | load | logic | stepRegister | pullAccumulator =>
    rw [effect, status_withResult]
    exact Status.get_ofResult _ _ h
  | stepOperand =>
    exact (Status.get_ofResult _ _ h).trans (congrArg (Status.get · f) (status_withOperand ..))
  | transfer source target =>
    cases target with
    | sp => rfl
    | a | x | y => exact Status.get_ofResult _ _ h
  | shift kind =>
    show (Status.ofResult { (c.withOperand mode _).status with carry := _ } _).get f = _
    rw [status_withOperand]
    cases f <;> simp [Operation.flags] at h <;> rfl
  | add | subtract | compare | bitTest => cases f <;> simp [Operation.flags] at h <;> rfl
  | pullStatus | returnFromInterrupt => cases f <;> simp [Operation.flags, Status.flags] at h
  | setFlag flag value => exact (Status.get_set ..).trans (if_neg (List.mem_singleton.not.1 h))
  | store => exact congrArg (Status.get · f) (status_withOperand ..)
  | pushAccumulator | pushStatus =>
    rw [effect, pushed_eq]
  | call =>
    obtain ⟨pc, hs⟩ := c.exists_effect_call mode
    rw [hs, pushed_eq]
  | brk =>
    rw [effect]
    cases hbrk : c.config.brk with
    | halt => rfl
    | interrupt =>
      rw [hbrk] at h
      show Status.get { (c.pushed c.savedBySoftware).status with interruptDisable := true } f = _
      rw [pushed_eq]
      cases f with
      | interruptDisable => exact absurd (List.mem_singleton.2 rfl) h
      | _ => rfl
  | branch flag value =>
    obtain ⟨pc, cycles, hs⟩ := c.exists_effect_branch flag value mode
    rw [hs]
  | jump =>
    obtain ⟨pc, hs⟩ := c.exists_effect_jump mode
    rw [hs]
  | returnFromCall | nop => rfl

/-- An operation leaves all cells alone but the one that its operand lies in and those below SP. -/
theorem cell_effect {a : UInt16}
    (hoperand : operation.access ≠ .none → operation.access ≠ .read →
      ∀ e, c.effectiveAddress mode = some e → a ≠ c.memory.policy.fold e)
    (hstack : ∀ i < operation.pushCount c.config.brk, a ≠ stackAddress (c.sp - UInt8.ofNat i)) :
    (c.effect operation mode).memory.cell a = c.memory.cell a := by
  cases operation with
  | store | shift | stepOperand => exact cell_withOperand _ (hoperand nofun nofun)
  | load target | stepRegister target => cases target <;> rfl
  | transfer source target => cases target <;> rfl
  | pushAccumulator | pushStatus => exact cell_pushed_of_ne hstack
  | call =>
    obtain ⟨pc, hs⟩ := c.exists_effect_call mode
    rw [hs]
    exact cell_pushed_of_ne hstack
  | brk =>
    rw [effect]
    cases hbrk : c.config.brk with
    | halt => rfl
    | interrupt =>
      rw [hbrk] at hstack
      exact cell_pushed_of_ne hstack
  | branch flag value =>
    obtain ⟨pc, cycles, hs⟩ := c.exists_effect_branch flag value mode
    rw [hs]
  | jump =>
    obtain ⟨pc, hs⟩ := c.exists_effect_jump mode
    rw [hs]
  | add | subtract | logic | compare | bitTest | setFlag | pullAccumulator | pullStatus
  | returnFromCall | returnFromInterrupt | nop => rfl

/-! ## Steps -/

/-- An NMI is never masked. -/
theorem nmiPending_of_no_entry (h : c.interruptDue = none) : c.nmiPending = false := by
  unfold interruptDue at h
  grind

/-- Without an entry at most a masked request is dropped. -/
theorem afterEntry_of_no_entry (h : c.interruptDue = none) :
    c.afterEntry = { c with irqPending := false } := by
  simp [afterEntry, h, acknowledged, nmiPending_of_no_entry h]

theorem ready_of_no_entry (h : c.interruptDue = none) :
    c.ready = { c.afterOpcode with irqPending := false } :=
  congrArg afterOpcode (afterEntry_of_no_entry h)

/-- The effect of a row stays within its footprint. -/
theorem footprint_completed (hins : ins ∈ Instruction.table) (hdue : c.interruptDue = none) :
    c.Footprint ins (c.completed ins) := by
  have hready := ready_of_no_entry hdue
  obtain ⟨pc, state, hs⟩ := c.exists_completed ins
  rw [hs, hready]
  refine ⟨fun r hr => ?registers, fun f hf => ?flags, fun a ha => ?cells⟩
  case registers =>
    refine Instruction.mayChange_of_mem_registers hins (Classical.byContradiction fun h => hr ?_)
    have hsame := get_effect (c := { c.afterOpcode with irqPending := false }) h
    cases r <;> exact hsame
  case flags =>
    refine Mnemonic.mayChange_of_mem_flags (Classical.byContradiction fun h => hf ?_)
    exact get_status_effect (c := { c.afterOpcode with irqPending := false }) h
  case cells =>
    by_contra h
    rw [not_or, not_and] at h
    obtain ⟨hoperand, hstack⟩ := h
    refine ha (cell_effect (c := { c.afterOpcode with irqPending := false }) ?_ ?_)
    · intro hnone hread e he heq
      exact hoperand (Mnemonic.mem_writers_of_access hnone hread) ⟨e, he, heq⟩
    · intro i hi heq
      exact hstack ⟨i, hi, heq⟩

/-- **Footprints.** A step that succeeds and enters no interrupt stays within the footprint of the
instruction it has executed. No step changes the settings, the policy or the ROM flag. -/
theorem footprint_of_step (c : Cpu) :
    (∀ o, c.state = .running → (step.run c).result = .ok o → o.interrupt = none →
      ∃ ins, Instruction.lookup o.opcode = some ins ∧ c.Footprint ins (step.run c).state) ∧
    (step.run c).state.config = c.config ∧
    (step.run c).state.memory.policy = c.memory.policy ∧
    (step.run c).state.memory.romMapped = c.memory.romMapped := by
  obtain ⟨hmemory, hconfig⟩ := recorded_step c
  refine ⟨fun o h ho hdue => ?_, hconfig, ?_, ?_⟩
  · obtain ⟨ins, hl, hs, rfl⟩ := exists_completed_of_step_ok h ho
    rw [hs]
    exact ⟨ins, hl, footprint_completed (Instruction.mem_table_of_lookup hl) hdue⟩
  · rw [hmemory, Memory.policy_replay]
  · rw [hmemory, Memory.romMapped_replay]

/-- `INC $0810` with a masked IRQ waiting changes nothing in memory but `$0010`. -/
theorem footprint_of_step_of_inc :
    let memory := (Memory.blank .flat).load 0x0300 [0xEE, 0x10, 0x08]
    let c := { ofMemory memory {} with state := .running, pc := 0x0300, irqPending := true }
    let o : StepOutcome := ⟨0x0300, 0xEE, 6, false, none⟩
    let s := (step.run c).state
    (c.state = .running ∧ (step.run c).result = .ok o ∧ o.interrupt = none) ∧
      s.memory.cell 0x0010 = 1 ∧ ∀ a, a ≠ 0x0010 → s.memory.cell a = c.memory.cell a := by
  intro memory c o s
  have h : c.state = .running := rfl
  have ho : (step.run c).result = .ok o := by decide +kernel
  have hrow : Instruction.lookup o.opcode = some ⟨0xEE, .inc, .absolute, 6⟩ := by decide +kernel
  obtain ⟨⟨ins, hl, hfootprint⟩, -⟩ := (footprint_of_step c).imp_left fun hf => hf o h ho rfl
  rw [hrow] at hl
  cases hl
  refine ⟨⟨h, ho, rfl⟩, by decide +kernel, fun a ha => Classical.byContradiction fun hne => ?_⟩
  rcases hfootprint.cells a hne with ⟨-, e, he, rfl⟩ | ⟨i, hi, -⟩
  · have hplace : c.afterOpcode.effectiveAddress .absolute = some 0x0810 := by decide +kernel
    cases he.symm.trans hplace
    exact ha (by decide +kernel)
  · exact absurd hi (Nat.not_lt_zero i)

end Cpu

end NesCore
