import NesCore.Proofs.Branches
import NesCore.Proofs.MultiByte
import NesCore.Proofs.OperandByte

/-!
# Comparing and branching

A comparison leaves its register and the operand in the flags, and a branch reads one flag. Which
order of the two bytes a branch stands for is `Mnemonic.Orders`; `get_ofComparison_iff` shows that
the flag says so. A subtraction without a borrow orders the bytes as signed numbers, by N and V.

Main statement: `compare_and_branch`.
-/

namespace NesCore

/-- The register that a comparison compares with its operand. -/
def Mnemonic.compared? : Mnemonic → Option Register
  | .cmp => some .a
  | .cpx => some .x
  | .cpy => some .y
  | _ => none

theorem Mnemonic.operation_of_compared {m : Mnemonic} {register : Register}
    (h : m.compared? = some register) : m.operation = .compare register := by
  revert h
  cases m <;> cases register <;> decide

/-- What a taken branch behind a comparison of `r` with `v` says of the two. A comparison leaves V
as it was before. -/
def Mnemonic.Orders (m : Mnemonic) (r v : UInt8) (overflow : Bool) : Prop :=
  match m with
  | .bcs => v.toNat ≤ r.toNat
  | .bcc => r.toNat < v.toNat
  | .beq => r = v
  | .bne => r ≠ v
  | .bmi => 128 ≤ (r.toNat - v.toNat : Int) % 256
  | .bpl => (r.toNat - v.toNat : Int) % 256 < 128
  | .bvs => overflow = true
  | .bvc => overflow = false
  | _ => False

namespace Status

/-- The flags of a comparison. -/
def ofComparison (p : Status) (r v : UInt8) : Status :=
  ofResult { p with carry := v ≤ r } (r - v)

theorem negative_ofComparison_iff (p : Status) (r v : UInt8) :
    (p.ofComparison r v).negative = true ↔ 128 ≤ (r.toNat - v.toNat : Int) % 256 := by
  have hr := r.toNat_lt
  have hv := v.toNat_lt
  show isNegative (r - v) = true ↔ _
  rw [Bytes.isNegative_iff, UInt8.toNat_sub]
  omega

theorem zero_ofComparison_iff (p : Status) (r v : UInt8) :
    (p.ofComparison r v).zero = true ↔ r = v := by
  have hr := r.toNat_lt
  have hv := v.toNat_lt
  show (r - v == 0) = true ↔ _
  rw [beq_iff_eq, ← UInt8.toNat_inj, ← UInt8.toNat_inj, UInt8.toNat_sub, UInt8.toNat_zero]
  omega

theorem carry_ofComparison_iff (p : Status) (r v : UInt8) :
    (p.ofComparison r v).carry = true ↔ v.toNat ≤ r.toNat :=
  decide_eq_true_iff.trans UInt8.le_iff_toNat_le

/-- The flag of a branch has the value that takes it exactly if the bytes are in its order. -/
theorem get_ofComparison_iff (p : Status) (r v : UInt8) {m : Mnemonic} {flag : Flag} {value : Bool}
    (h : m.operation = .branch flag value) :
    (p.ofComparison r v).get flag = value ↔ m.Orders r v p.overflow := by
  have hcarry := p.carry_ofComparison_iff r v
  have hzero := p.zero_ofComparison_iff r v
  have hnegative := p.negative_ofComparison_iff r v
  cases m with
  | bcs =>
    cases h
    exact hcarry
  | bcc =>
    cases h
    exact Bool.eq_false_iff.trans (hcarry.not.trans Nat.not_le)
  | beq =>
    cases h
    exact hzero
  | bne =>
    cases h
    exact Bool.eq_false_iff.trans hzero.not
  | bmi =>
    cases h
    exact hnegative
  | bpl =>
    cases h
    exact Bool.eq_false_iff.trans (hnegative.not.trans Int.not_le)
  | bvs | bvc =>
    cases h
    exact Iff.rfl
  | _ => cases h

end Status

namespace Cpu

variable {c : Cpu} {ins row : Instruction} {register : Register} {o o' : StepOutcome}

/-- A, X, Y, SP and memory are the same. -/
structure SameData (c d : Cpu) : Prop where
  a : d.a = c.a
  x : d.x = c.x
  y : d.y = c.y
  sp : d.sp = c.sp
  memory : d.memory = c.memory

/-! ## Single steps -/

/-- A comparison that succeeds has found its operand and leaves all but the flags, PC and the cycles
alone. -/
theorem compare_of_step_ok (h : c.Undisturbed) (ho : (step.run c).result = .ok o)
    (hl : Instruction.lookup o.opcode = some ins) (hop : ins.operation = .compare register) :
    ∃ v, c.Finds ins v ∧ ∃ pc cycles, (step.run c).state =
      { c with
        pc := pc
        status := c.status.ofComparison (c.toRegisters.get register) v
        cycles := cycles } := by
  have hreads : ins.operation.access = .read ∨ ins.operation.access = .modify :=
    .inl (by rw [hop]; rfl)
  have hfinds := finds_of_step_ok h.running h.nmiPending h.irqPending ho hl hreads
  obtain ⟨-, -, ⟨pc, cycles, hs⟩, -⟩ := step_of_finds hfinds hreads
  refine ⟨_, hfinds, pc, cycles, ?_⟩
  rw [hs, hop]
  rfl

/-- Without a borrow at the start, a subtraction orders the signed numbers by N and V. -/
theorem subtract_of_delivers {v : UInt8} (h : c.Delivers .sbc v) (hcarry : c.status.carry = true) :
    (step.run c).state.status.negative ≠ (step.run c).state.status.overflow ↔
      c.a.toInt8.toInt < v.toInt8.toInt := by
  obtain ⟨-, -, -, -, hoverflow, hnegative⟩ := state_of_carrying (k := .sbc) h
  rw [hoverflow, hnegative, hcarry]
  exact Bytes.negative_ne_overflow_iff

/-! ## Main statement -/

/-- **Comparing and branching decide the order of two bytes.** Where a comparison of `r` with an
operand `v` succeeds and a branch that follows it succeeds too, the branch is taken exactly if the
bytes are in the order of its mnemonic. Taken, it goes to the place of the next instruction and the
signed offset, otherwise to the next instruction; neither step changes A, X, Y, SP or memory. After
a subtraction of `v` from A with C set, N and V differ exactly if A is the lesser signed number. -/
theorem compare_and_branch (h : c.state = .running) :
    (∀ ins row register o o', c.nmiPending = false → c.irqPending = false →
      let s := (step.run c).state
      let t := (step.run s).state
      (step.run c).result = .ok o → Instruction.lookup o.opcode = some ins →
      ins.mnemonic.compared? = some register →
      (step.run s).result = .ok o' → Instruction.lookup o'.opcode = some row →
      row.mnemonic ∈ Mnemonic.branches →
      ∃ v offset, c.Finds ins v ∧ s.memory.read (s.pc + 1) = .ok offset ∧
        (o'.Taken ↔ row.mnemonic.Orders (c.toRegisters.get register) v c.status.overflow) ∧
        (o'.Taken → (t.pc.toNat : Int) = (s.pc.toNat + 2 + offset.toInt8.toInt) % 65536) ∧
        (¬ o'.Taken → t.pc.toNat = (s.pc.toNat + 2) % 65536) ∧
        c.SameData s ∧ c.SameData t) ∧
    ∀ ins o, (step.run c).result = .ok o → Instruction.lookup o.opcode = some ins →
      ins.mnemonic = .sbc → c.status.carry = true →
      ∃ v, c.Delivers .sbc v ∧
        ((step.run c).state.status.negative ≠ (step.run c).state.status.overflow ↔
          c.a.toInt8.toInt < v.toInt8.toInt) := by
  refine ⟨?branch, ?subtract⟩
  case branch =>
    intro ins row register o o' hnmi hirq s t ho hl hcompared ho' hl' hbranch
    obtain ⟨flag, value, hop⟩ := Mnemonic.exists_of_branches hbranch
    obtain ⟨v, hfinds, pc, cycles, hs⟩ := compare_of_step_ok ⟨h, hnmi, hirq⟩ ho hl
      (Mnemonic.operation_of_compared hcompared)
    have hundisturbed : s.Undisturbed := by
      show (step.run c).state.Undisturbed
      rw [hs]
      exact ⟨h, hnmi, hirq⟩
    obtain ⟨offset, hoffset, htaken, cycles', ht⟩ := branch_of_step_ok hundisturbed ho' hl' hop
    have hsame : c.SameData s := by
      show c.SameData (step.run c).state
      rw [hs]
      exact ⟨rfl, rfl, rfl, rfl, rfl⟩
    have hpc : t.pc =
        if s.status.get flag = value then Word.displaced (s.pc + 2) offset else s.pc + 2 :=
      congrArg (·.pc) ht
    have hnext : (s.pc + 2).toNat = (s.pc.toNat + 2) % 65536 := UInt16.toNat_add s.pc 2
    refine ⟨v, offset, hfinds, hoffset, ?_, fun hyes => ?_, fun hno => ?_, hsame, ?_⟩
    · have hstatus : s.status = c.status.ofComparison (c.toRegisters.get register) v :=
        congrArg (·.status) hs
      rw [htaken, hstatus, Status.get_ofComparison_iff _ _ _ hop]
    · rw [hpc, if_pos (htaken.1 hyes), Word.toNat_displaced, hnext]
      omega
    · rw [hpc, if_neg fun hflag => hno (htaken.2 hflag), hnext]
    · show c.SameData (step.run s).state
      rw [ht]
      exact ⟨hsame.a, hsame.x, hsame.y, hsame.sp, hsame.memory⟩
  case subtract =>
    intro ins o ho hl hsbc hcarry
    have hread : ins.operation.access = .read := by
      show ins.mnemonic.operation.access = .read
      rw [hsbc]
      rfl
    have hdelivers := delivers_of_step_ok h ho hl hread
    rw [hsbc] at hdelivers
    exact ⟨_, hdelivers, subtract_of_delivers hdelivers hcarry⟩

/-- `CPX #$90` with X = `$10` in the last two bytes of memory and a `BMI` back in the first two:
`$10 - $90` is `$80` without a borrow from above. `SBC #$01` with A = `$80` leaves N clear and V
set. -/
theorem compare_and_branch_of_cpx_bmi :
    let memory := ((Memory.blank .flat).load 0xFFFE [0xE0, 0x90]).load 0x0000 [0x30, 0xF0]
    let c := { ofMemory memory {} with state := .running, pc := 0xFFFE, x := 0x10 }
    let d := { ofMemory ((Memory.blank .flat).load 0x0300 [0xE9, 0x01]) {} with
      state := .running, pc := 0x0300, a := 0x80, status := Status.ofByte 0x01 }
    let s := (step.run c).state
    let t := (step.run s).state
    let u := (step.run d).state
    let o : StepOutcome := ⟨0xFFFE, 0xE0, 2, false, none⟩
    let o' : StepOutcome := ⟨0x0000, 0x30, 4, false, none⟩
    (c.state = .running ∧ (step.run c).result = .ok o ∧ (step.run s).result = .ok o') ∧
      o'.Taken ∧ Mnemonic.bmi.Orders 0x10 0x90 false ∧ t.pc = 0xFFF2 ∧ c.SameData t ∧
      (d.state = .running ∧ d.status.carry = true) ∧ u.status.negative ≠ u.status.overflow ∧
      ∃ w, d.Delivers .sbc w ∧ d.a.toInt8.toInt < w.toInt8.toInt := by
  intro memory c d s t u o o'
  let cpx : Instruction := ⟨0xE0, .cpx, .immediate, 2⟩
  let bmi : Instruction := ⟨0x30, .bmi, .relative, 2⟩
  let sbc : Instruction := ⟨0xE9, .sbc, .immediate, 2⟩
  have ho : (step.run c).result = .ok o := by decide +kernel
  have ho' : (step.run s).result = .ok o' := by decide +kernel
  have htaken : o'.Taken := by decide
  obtain ⟨v, offset, hfinds, hoffset, hiff, hyes, -, -, hdata⟩ :=
    (compare_and_branch (c := c) rfl).1 cpx bmi .x o o' rfl rfl ho (by decide +kernel) rfl ho'
      (by decide +kernel) (by decide)
  obtain ⟨operand, hresolve, hvalue⟩ := hfinds.operand
  have hoperand : ((resolve cpx.mode).run c.afterOpcode).result =
      .ok ⟨.immediate, some 0xFFFF, false⟩ := by decide +kernel
  have hnine : ((readOperand ⟨.immediate, some 0xFFFF, false⟩).run c.afterOpcode).result =
      .ok 0x90 := by decide +kernel
  have hback : s.memory.read (s.pc + 1) = .ok 0xF0 := by decide +kernel
  cases hoperand.symm.trans hresolve
  cases hnine.symm.trans hvalue
  cases hback.symm.trans hoffset
  have hpc : t.pc.toNat = (0xFFF2 : UInt16).toNat := by
    have hplace : s.pc = 0 := by decide +kernel
    have hgoes := hyes htaken
    rw [hplace] at hgoes
    exact Int.ofNat_inj.1 hgoes
  obtain ⟨w, hdelivers, hsigned⟩ := (compare_and_branch (c := d) rfl).2 sbc
    ⟨0x0300, 0xE9, 2, false, none⟩ (by decide +kernel) (by decide +kernel) rfl rfl
  have hdiffer : u.status.negative ≠ u.status.overflow := by decide +kernel
  exact ⟨⟨rfl, ho, ho'⟩, htaken, hiff.1 htaken, UInt16.toNat_inj.1 hpc, hdata, ⟨rfl, rfl⟩, hdiffer,
    w, hdelivers, hsigned.1 hdiffer⟩

end Cpu

end NesCore
