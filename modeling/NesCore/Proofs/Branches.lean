import NesCore.Proofs.StepCycles

/-!
# Branches

Eight mnemonics go to an address near PC if a flag has a value. Whether a branch is taken shows in
the cycles that the step reports (`StepOutcome.Taken`), also where both ways lead to the same
address. `branch_of_step_ok` says when a branch is taken and where it goes on.
-/

namespace NesCore

/-- The mnemonics that jump if a flag has a value. -/
def Mnemonic.branches : List Mnemonic := [.bcc, .bcs, .beq, .bne, .bmi, .bpl, .bvc, .bvs]

theorem Mnemonic.exists_of_branches {m : Mnemonic} (h : m ∈ branches) :
    ∃ flag value, m.operation = .branch flag value := by
  revert h
  cases m <;> simp [branches, operation]

theorem Instruction.cycles_of_branches {ins : Instruction} (h : ins ∈ table)
    (hb : ins.operation.branches) : ins.cycles = 2 := by
  have key : ∀ row ∈ table, row.operation.branches → row.cycles = 2 := by decide +kernel
  exact key ins h hb

/-- The step of a branch has taken it: it reports more than the two cycles of the row. -/
def StepOutcome.Taken (o : StepOutcome) : Prop := 2 < o.cycles.toNat

instance : DecidablePred StepOutcome.Taken := fun _ => inferInstanceAs (Decidable (_ < _))

namespace Cpu

variable {c : Cpu} {ins : Instruction} {o : StepOutcome} {flag : Flag} {value : Bool}

/-- The row of a step without an interrupt is that of the opcode it reports. -/
theorem executes_of_lookup (h : c.Undisturbed) (ho : (step.run c).result = .ok o)
    (hl : Instruction.lookup o.opcode = some ins) :
    c.Executes ins ∧ c.terms.GrantsAll (c.afterOpcode.instructionDemands ins) := by
  obtain ⟨row, hrow, hexecutes, hdemands⟩ := exists_executes_of_step_ok h ho
  rw [(hexecutes.step_eq hrow hdemands).2] at ho
  cases ho
  rw [Instruction.lookup_opcode hrow] at hl
  cases hl
  exact ⟨hexecutes, hdemands⟩

/-- Extra cycles are those of a branch that is taken. -/
theorem extraCycles_of_branch (c : Cpu) (hop : ins.operation = .branch flag value) :
    0 < c.extraCycles ins ↔ c.status.get flag = value := by
  simp only [extraCycles, hop]
  split_ifs with htaken hpage
  · exact iff_of_true Nat.one_pos htaken
  · exact iff_of_true Nat.two_pos htaken
  · exact iff_of_false (Nat.lt_irrefl 0) htaken

/-- A branch changes PC and the cycles. -/
theorem exists_completed_of_branch (h : c.Executes ins) (hmode : ins.mode = .relative)
    (hop : ins.operation = .branch flag value) :
    ∃ cycles, c.completed ins = { c with
      pc := if c.status.get flag = value then Word.displaced (c.pc + 2) c.afterOpcode.operandByte
        else c.pc + 2
      cycles := cycles } := by
  have hready := h.ready_eq
  have hbehind : c.pc + 1 + 1 = c.pc + 2 := Word.add_one_add_one c.pc
  by_cases htaken : c.status.get flag = value
  · have hflow : c.ready.flow ins.operation = .jump := by
      rw [hop, hready]
      exact if_pos htaken
    have heffect : c.ready.effect ins.operation ins.mode = { c.afterOpcode with
        pc := Word.displaced (c.pc + 1 + 1) c.afterOpcode.operandByte
        cycles := c.cycles + (if c.afterOpcode.crossesPage .relative then 2 else 1) } := by
      rw [hop, hready, hmode]
      exact if_pos htaken
    rw [completed_of_jump heffect hflow, if_pos htaken, ← hbehind]
    exact ⟨_, rfl⟩
  · have hflow : c.ready.flow ins.operation = .next := by
      rw [hop, hready]
      exact if_neg htaken
    have heffect : c.ready.effect ins.operation ins.mode = c.afterOpcode := by
      rw [hop, hready]
      exact if_neg htaken
    rw [completed_of_next heffect hflow, hmode, if_neg htaken, ← hbehind]
    exact ⟨_, rfl⟩

/-- The step of a branch has read its offset, has taken it if the flag has the value, and leaves
all else alone. -/
theorem branch_of_step_ok (h : c.Undisturbed) (ho : (step.run c).result = .ok o)
    (hl : Instruction.lookup o.opcode = some ins) (hop : ins.operation = .branch flag value) :
    ∃ offset, c.memory.read (c.pc + 1) = .ok offset ∧
      (o.Taken ↔ c.status.get flag = value) ∧
      ∃ cycles, (step.run c).state = { c with
        pc := if c.status.get flag = value then Word.displaced (c.pc + 2) offset else c.pc + 2
        cycles := cycles } := by
  have hins := Instruction.mem_table_of_lookup hl
  have hbranches : ins.operation.branches := by rw [hop]; rfl
  have hmode := Instruction.mode_of_branches hins hbranches
  obtain ⟨hexecutes, hdemands⟩ := executes_of_lookup h ho hl
  obtain ⟨hs, ho'⟩ := hexecutes.step_eq hins hdemands
  rw [ho'] at ho
  cases ho
  refine ⟨c.afterOpcode.operandByte, ?offset, ?taken, ?state⟩
  case offset =>
    have hread : Demand.read (c.pc + 1) ∈ c.afterOpcode.instructionDemands ins := by
      rw [instructionDemands_eq _ hins, hmode, resolveDemands_of_byte _ rfl (by decide)]
      exact List.mem_cons_self
    exact Memory.read_of_not_refuses (hdemands _ hread)
  case taken =>
    have hentry : c.entryCycles = 0 := by
      rw [entryCycles, h.interruptDue]
      rfl
    have hcycles : ((c.completed ins).cycles - c.cycles).toNat =
        2 + c.afterOpcode.extraCycles ins := by
      rw [cycles_completed, hentry, UInt64.zero_add, toNat_rowCycles hins,
        Instruction.cycles_of_branches hins hbranches, hexecutes.ready_eq]
    have hextra := c.afterOpcode.extraCycles_of_branch hop
    show 2 < ((c.completed ins).cycles - c.cycles).toNat ↔ c.afterOpcode.status.get flag = value
    rw [hcycles, ← hextra]
    omega
  case state =>
    rw [hs]
    exact exists_completed_of_branch hexecutes hmode hop

end Cpu

end NesCore
