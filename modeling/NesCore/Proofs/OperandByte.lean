import NesCore.Proofs.Bytes
import NesCore.Proofs.Course.Writes
import NesCore.Proofs.Footprint
import NesCore.Proofs.StepCycles

/-!
# Effects depend on the operand's byte

An instruction that reads its operand works on the byte it finds, however it has found it. Two
processors that agree in their registers and find the same byte are left in agreement
(`Alike.effect`), and the byte that goes back to the operand is the same (`writes_of_finds`),
whether memory takes it or not.

Main statement: `effect_of_operand_byte`.
-/

namespace NesCore

theorem Mnemonic.access_of_reads {m : Mnemonic}
    (h : m ∈ readers ∨ m ∈ [.inc, .dec] ∨ m ∈ shifts) :
    m.operation.access = .read ∨ m.operation.access = .modify := by
  revert h
  cases m <;> decide

theorem Mnemonic.operation_of_result {m : Mnemonic} (h : m ∉ [.cmp, .cpx, .cpy, .bit]) :
    (∀ r, m.operation ≠ .compare r) ∧ m.operation ≠ .bitTest := by
  revert h
  cases m <;> simp [operation]

theorem Mnemonic.exists_of_shifts {m : Mnemonic} (h : m ∈ shifts) :
    ∃ kind, m.operation = .shift kind := by
  revert h
  cases m <;> simp [operation, shifts]

/-- Only shifts work on A as their operand. -/
theorem Instruction.mode_of_not_shift {ins : Instruction} (h : ins ∈ table)
    (hshift : ins.mnemonic ∉ Mnemonic.shifts) : ins.mode ≠ .accumulator := by
  have key : ∀ row ∈ table, row.mnemonic ∉ Mnemonic.shifts → row.mode ≠ .accumulator := by
    decide +kernel
  exact key ins h hshift

theorem Mnemonic.exists_of_inc_dec {m : Mnemonic} (h : m ∈ [.inc, .dec]) :
    ∃ direction, m.operation = .stepOperand direction := by
  revert h
  cases m <;> simp [operation]

namespace Cpu

open NesCore.Action

variable {c d : Cpu} {ins row : Instruction} {operation : Operation} {mode mode' : Mode} {v : UInt8}

/-! ## Instructions that find their operand -/

/-- The next instruction is a row of the table, and its operand can be found and read as the
byte. -/
structure Finds (c : Cpu) (ins : Instruction) (v : UInt8) : Prop extends c.Executes ins where
  row : ins ∈ Instruction.table
  operand : ∃ operand, ((resolve ins.mode).run c.afterOpcode).result = .ok operand ∧
    ((readOperand operand).run c.afterOpcode).result = .ok v

theorem isSome_effectiveAddress (c : Cpu) (h : mode ≠ .implied) (h' : mode ≠ .accumulator) :
    (c.effectiveAddress mode).isSome := by
  cases mode with
  | implied => exact absurd rfl h
  | accumulator => exact absurd rfl h'
  | _ => rfl

/-- An instruction that reads its operand succeeds, and leaves its effect on the byte. -/
theorem step_of_finds (h : c.Finds ins v)
    (hreads : ins.operation.access = .read ∨ ins.operation.access = .modify) :
    c.afterOpcode.operandValue ins.mode = v ∧ (∃ o, (step.run c).result = .ok o) ∧
      (∃ pc cycles, (step.run c).state =
        { c.afterOpcode.effect ins.operation ins.mode with pc := pc, cycles := cycles }) ∧
      (step.run c).writes =
        (c.afterOpcode.dataDemands ins.operation ins.mode).filterMap Demand.written? := by
  obtain ⟨hdue, hsame⟩ := afterEntry_of_no_request h.noNmi h.noIrq
  obtain ⟨operand, hresolve, hvalue⟩ := h.operand
  obtain ⟨hfound, hdemands⟩ := grantsAll_of_operand h.row hreads hresolve hvalue
  obtain ⟨hstack, hflow⟩ := stackDemands_of_reads hreads c.afterOpcode
  obtain ⟨hs, ho⟩ := h.step_eq h.row hdemands
  have hl : Instruction.lookup (c.memory.peek c.pc) = some ins := h.lookup_peek h.row
  rw [completed_of_next rfl (by rw [h.ready_eq]; exact hflow), h.ready_eq] at hs
  refine ⟨hfound, ⟨_, ho⟩, ⟨_, _, hs⟩, ?_⟩
  rw [(writes_step h.running).2 _ ho, hsame, instructionWrites_of_documented hl, hstack,
    entryWrites_eq, hdue]
  exact (List.nil_append _).trans (List.append_nil _)

/-- Every step that succeeds in such an instruction has found its operand, so that `Finds` asks for
nothing that a step can do without. -/
theorem finds_of_step_ok {o : StepOutcome} (h : c.state = .running) (hnmi : c.nmiPending = false)
    (hirq : c.irqPending = false) (ho : (step.run c).result = .ok o)
    (hl : Instruction.lookup o.opcode = some ins)
    (hreads : ins.operation.access = .read ∨ ins.operation.access = .modify) :
    c.Finds ins (c.afterOpcode.operandValue ins.mode) := by
  obtain ⟨-, hsame⟩ := afterEntry_of_no_request hnmi hirq
  have hready : c.ready = c.afterOpcode := congrArg afterOpcode hsame
  have hpc : c.fetchAddress = c.pc := by rw [← pc_afterEntry, hsame]
  obtain ⟨hopcode, hoperand⟩ := operand_of_step_ok h ho hl hreads
  rw [hsame, hpc] at hopcode
  rw [hready] at hoperand
  exact ⟨⟨h, hnmi, hirq, hopcode⟩, Instruction.mem_table_of_lookup hl, hoperand⟩

/-! ## Processors that agree -/

/-- Two processors agree in A, X, Y, SP and P. -/
structure Alike (c d : Cpu) : Prop where
  a : c.a = d.a
  x : c.x = d.x
  y : c.y = d.y
  sp : c.sp = d.sp
  status : c.status = d.status

namespace Alike

theorem get (h : Alike c d) (r : Register) : c.toRegisters.get r = d.toRegisters.get r := by
  cases r with
  | a => exact h.a
  | x => exact h.x
  | y => exact h.y
  | sp => exact h.sp

theorem setStatus (h : Alike c d) (p : Status) : Alike (c.setStatus p) (d.setStatus p) :=
  ⟨h.a, h.x, h.y, h.sp, rfl⟩

theorem noteResult (h : Alike c d) (v : UInt8) : Alike (c.noteResult v) (d.noteResult v) := by
  unfold Cpu.noteResult
  rw [h.status]
  exact h.setStatus _

theorem setRegister (h : Alike c d) (r : Register) (v : UInt8) :
    Alike (c.setRegister r v) (d.setRegister r v) := by
  obtain ⟨ha, hx, hy, hsp, hp⟩ := h
  cases r with
  | a => exact ⟨rfl, hx, hy, hsp, hp⟩
  | x => exact ⟨ha, rfl, hy, hsp, hp⟩
  | y => exact ⟨ha, hx, rfl, hsp, hp⟩
  | sp => exact ⟨ha, hx, hy, rfl, hp⟩

/-- Where the operand lies in memory, writing it leaves the registers alone. -/
theorem withOperand (h : Alike c d) (hc : (c.effectiveAddress mode).isSome)
    (hd : (d.effectiveAddress mode').isSome) (v : UInt8) :
    Alike (c.withOperand mode v) (d.withOperand mode' v) := by
  obtain ⟨e, he⟩ := Option.isSome_iff_exists.1 hc
  obtain ⟨e', he'⟩ := Option.isSome_iff_exists.1 hd
  unfold Cpu.withOperand
  rw [he, he']
  exact ⟨h.a, h.x, h.y, h.sp, h.status⟩

/-- What finds the same byte leaves the same registers. -/
theorem effect (h : Alike c d) (hreads : operation.access = .read ∨ operation.access = .modify)
    (hplace : operation.access = .modify →
      (c.effectiveAddress mode).isSome ∧ (d.effectiveAddress mode').isSome)
    (hv : c.operandValue mode = d.operandValue mode') :
    Alike (c.effect operation mode) (d.effect operation mode') := by
  cases operation with
  | load register =>
    simp only [Cpu.effect, hv]
    exact (h.setRegister register _).noteResult _
  | logic kind =>
    simp only [Cpu.effect, hv, h.a]
    exact (h.setRegister .a _).noteResult _
  | add | subtract =>
    simp only [Cpu.effect, withSum, hv, h.a, h.status]
    exact ((h.setRegister .a _).setStatus _).noteResult _
  | compare register =>
    simp only [Cpu.effect, hv, h.get, h.status]
    exact (h.setStatus _).noteResult _
  | bitTest =>
    simp only [Cpu.effect, hv, h.a, h.status]
    exact h.setStatus _
  | shift kind =>
    obtain ⟨hc, hd⟩ := hplace rfl
    simp only [Cpu.effect, hv, h.status, status_withOperand]
    exact ((h.withOperand hc hd _).setStatus _).noteResult _
  | stepOperand direction =>
    obtain ⟨hc, hd⟩ := hplace rfl
    simp only [Cpu.effect, hv]
    exact (h.withOperand hc hd _).noteResult _
  | _ => rcases hreads with h | h <;> cases h

end Alike

/-! ## Operands that are put back -/

/-- An instruction that puts its operand back makes one write, even if memory does not take it. -/
theorem writes_of_finds (h : c.Finds ins v) (hmodify : ins.operation.access = .modify)
    (hmode : ins.mode ≠ .accumulator) :
    ∃ e, c.afterOpcode.effectiveAddress ins.mode = some e ∧
      (step.run c).writes = [(e, c.stored ins.operation v)] := by
  obtain ⟨hvalue, -, -, hwrites⟩ := step_of_finds h (.inr hmodify)
  obtain ⟨e, he⟩ := Option.isSome_iff_exists.1
    (c.afterOpcode.isSome_effectiveAddress (mode_ne_implied_of_reads h.row (.inr hmodify)) hmode)
  refine ⟨e, he, ?_⟩
  rw [hwrites, dataDemands, hmodify, dataRead, dataWrite, he, hvalue]
  rfl

/-- The flags of a shift depend on the byte and on P. -/
theorem status_effect_shift (c : Cpu) (kind : Alu.Shift) (mode : Mode) :
    (c.effect (.shift kind) mode).status =
      Status.ofResult { c.status with carry := kind.outgoing (c.operandValue mode) }
        (kind.value (c.operandValue mode) c.status.carry) := by
  show Status.ofResult { (c.withOperand mode _).status with carry := _ } _ = _
  rw [status_withOperand]

/-- What is put back decides N and Z. The operand of an accumulator form is A. -/
theorem effect_of_modify (c : Cpu) (mode : Mode) (h : operation.access = .modify) :
    let w := c.stored operation (c.operandValue mode)
    (∃ p : Status, (c.effect operation mode).status = p.ofResult w) ∧
      (mode = .accumulator → (c.effect operation mode).a = w) := by
  cases operation with
  | shift kind =>
    refine ⟨⟨_, status_effect_shift c kind mode⟩, ?_⟩
    rintro rfl
    rfl
  | stepOperand direction =>
    refine ⟨⟨c.status, ?_⟩, ?_⟩
    · exact congrArg (Status.ofResult · _) (status_withOperand ..)
    · rintro rfl
      rfl
  | _ => cases h

/-! ## Results -/

/-- The value that an instruction produces: the byte it has put back, or what is now in the
register that it sets. -/
def Produced (ins : Instruction) (o : Outcome Cpu CpuError StepOutcome) (w : UInt8) : Prop :=
  match ins.operation with
  | .load register => o.state.toRegisters.get register = w
  | .shift _ | .stepOperand _ =>
    if ins.mode = .accumulator then o.state.a = w else ∃ e, o.writes = [(e, w)]
  | _ => o.state.a = w

theorem negative_ofResult (p : Status) (w : UInt8) :
    (p.ofResult w).negative = w.toNat.testBit 7 := by
  have hlt := w.toNat_lt
  show Status.isNegative w = _
  rw [Bool.eq_iff_iff, Bytes.isNegative_iff, Nat.testBit_eq_decide_div_mod_eq, decide_eq_true_iff]
  omega

/-- N and Z are those of the value that is produced. -/
theorem exists_produced (h : c.Finds ins v)
    (hreads : ins.operation.access = .read ∨ ins.operation.access = .modify)
    (hresult : ins.mnemonic ∉ [.cmp, .cpx, .cpy, .bit]) :
    ∃ (p : Status) (w : UInt8),
      Produced ins (step.run c) w ∧ (step.run c).state.status = p.ofResult w := by
  obtain ⟨hcompare, hbit⟩ := Mnemonic.operation_of_result hresult
  obtain ⟨hvalue, -, ⟨pc, cycles, hs⟩, -⟩ := step_of_finds h hreads
  -- A byte that goes back to the operand is the one that is written, or else what is now in A.
  have hback (hmodify : ins.operation.access = .modify) : ∃ (p : Status) (w : UInt8),
      (if ins.mode = .accumulator then (step.run c).state.a = w
        else ∃ e, (step.run c).writes = [(e, w)]) ∧
      (step.run c).state.status = p.ofResult w := by
    obtain ⟨⟨p, hp⟩, ha⟩ := effect_of_modify c.afterOpcode ins.mode hmodify
    rw [hvalue] at hp ha
    refine ⟨p, c.stored ins.operation v, ?_, by rw [hs]; exact hp⟩
    split
    · next hmode =>
      rw [hs]
      exact ha hmode
    · next hmode =>
      obtain ⟨e, -, he⟩ := writes_of_finds h hmodify hmode
      exact ⟨e, he⟩
  unfold Produced
  cases hop : ins.operation with
  | load register =>
    rw [hop, effect, hvalue] at hs
    rw [hs]
    exact ⟨c.status, v, by cases register <;> rfl, by cases register <;> rfl⟩
  | add | subtract | logic =>
    rw [hop] at hs
    rw [hs]
    exact ⟨_, _, rfl, rfl⟩
  | shift | stepOperand => exact hback (by rw [hop]; rfl)
  | compare register => exact absurd hop (hcompare register)
  | bitTest => exact absurd hop hbit
  | _ =>
    rw [hop] at hreads
    rcases hreads with h | h <;> cases h

/-! ## Main statement -/

/-- **Effects depend on the operand's byte.** Take two processors that find the same byte as the
operand of the same mnemonic, each in a mode of its own. They succeed. If they agree in A, X, Y, SP
and P, they agree afterwards, and `INC` and `DEC` put back the same byte. A shift in memory leaves
the same P as the shift of A from an equal P, and puts back the byte that the latter leaves in A.
What is produced decides N and Z, whether memory takes it or not. -/
theorem effect_of_operand_byte (hc : c.Finds ins v) (hd : d.Finds row v)
    (hm : row.mnemonic = ins.mnemonic)
    (hreads : ins.mnemonic ∈ Mnemonic.readers ∨ ins.mnemonic ∈ [.inc, .dec] ∨
      ins.mnemonic ∈ Mnemonic.shifts) :
    let s := step.run c
    let t := step.run d
    ((∃ o, s.result = .ok o) ∧ ∃ o, t.result = .ok o) ∧
    (ins.mnemonic ∉ Mnemonic.shifts → c.Alike d → s.state.Alike t.state ∧
      (ins.mnemonic ∈ [.inc, .dec] → ∃ e e' w, s.writes = [(e, w)] ∧ t.writes = [(e', w)])) ∧
    (ins.mnemonic ∈ Mnemonic.shifts → ins.mode ≠ .accumulator → row.mode = .accumulator →
      c.status = d.status →
      s.state.status = t.state.status ∧ ∃ e, s.writes = [(e, t.state.a)]) ∧
    (ins.mnemonic ∉ [.cmp, .cpx, .cpy, .bit] → ∃ w, Produced ins s w ∧
      s.state.status.negative = w.toNat.testBit 7 ∧ (s.state.status.zero = true ↔ w = 0)) := by
  intro s t
  have hop : row.operation = ins.operation := congrArg Mnemonic.operation hm
  have hreadc := Mnemonic.access_of_reads hreads
  have hreadd : row.operation.access = .read ∨ row.operation.access = .modify := by
    rw [hop]
    exact hreadc
  obtain ⟨hvc, hokc, ⟨pc, cycles, hs⟩, -⟩ := step_of_finds hc hreadc
  obtain ⟨hvd, hokd, ⟨pc', cycles', ht⟩, -⟩ := step_of_finds hd hreadd
  refine ⟨⟨hokc, hokd⟩, fun hshift halike => ?alike,
    fun hshift hmemory haccumulator hstatus => ?shift, fun hresult => ?result⟩
  case alike =>
    have hshift' : row.mnemonic ∉ Mnemonic.shifts := hm ▸ hshift
    have hmode := Instruction.mode_of_not_shift hc.row hshift
    have hmode' := Instruction.mode_of_not_shift hd.row hshift'
    have hready : c.afterOpcode.Alike d.afterOpcode :=
      ⟨halike.a, halike.x, halike.y, halike.sp, halike.status⟩
    have hafter : (c.afterOpcode.effect ins.operation ins.mode).Alike
        (d.afterOpcode.effect ins.operation row.mode) := by
      refine hready.effect hreadc (fun _ => ⟨?_, ?_⟩) (hvc.trans hvd.symm)
      · exact c.afterOpcode.isSome_effectiveAddress (mode_ne_implied_of_reads hc.row hreadc) hmode
      · exact d.afterOpcode.isSome_effectiveAddress (mode_ne_implied_of_reads hd.row hreadd) hmode'
    refine ⟨?_, fun hstep => ?_⟩
    · show Alike (step.run c).state (step.run d).state
      rw [hs, ht, hop]
      exact ⟨hafter.a, hafter.x, hafter.y, hafter.sp, hafter.status⟩
    · obtain ⟨direction, hdirection⟩ := Mnemonic.exists_of_inc_dec hstep
      have hdirection : ins.operation = .stepOperand direction := hdirection
      obtain ⟨e, -, he⟩ := writes_of_finds hc (by rw [hdirection]; rfl) hmode
      obtain ⟨e', -, he'⟩ := writes_of_finds hd (by rw [hop, hdirection]; rfl) hmode'
      rw [hdirection] at he
      rw [hop, hdirection] at he'
      exact ⟨e, e', _, he, he'⟩
  case shift =>
    obtain ⟨kind, hkind⟩ := Mnemonic.exists_of_shifts hshift
    have hkind : ins.operation = .shift kind := hkind
    obtain ⟨e, -, he⟩ := writes_of_finds hc (by rw [hkind]; rfl) hmemory
    rw [hkind] at hs he
    rw [hop, hkind, haccumulator] at ht
    rw [haccumulator] at hvd
    refine ⟨?_, e, ?_⟩
    · show (step.run c).state.status = (step.run d).state.status
      rw [hs, ht]
      show (c.afterOpcode.effect _ _).status = (d.afterOpcode.effect _ _).status
      rw [status_effect_shift, status_effect_shift, hvc, hvd]
      show Status.ofResult { c.status with carry := _ } (kind.value v c.status.carry) =
        Status.ofResult { d.status with carry := _ } (kind.value v d.status.carry)
      rw [hstatus]
    · show (step.run c).writes = [(e, (step.run d).state.a)]
      rw [he, ht]
      show [(e, kind.value v c.status.carry)] =
        [(e, kind.value (d.afterOpcode.operandValue .accumulator) d.status.carry)]
      rw [hvd, hstatus]
  case result =>
    obtain ⟨p, w, hw, hp⟩ := exists_produced hc hreadc hresult
    refine ⟨w, hw, ?_, ?_⟩
    · rw [hp, negative_ofResult]
    · rw [hp]
      exact beq_iff_eq

/-- `DEC $8000` in a ROM and `DEC $2000,X` on a register that swallows what is written. -/
theorem effect_of_operand_byte_of_dropped_writes :
    let rom := { (Memory.blank .flat).load 0x0300 [0xCE, 0x00, 0x80] with romMapped := true }
    let silent := (Memory.blank .silent).load 0x0400 [0xDE, 0x00, 0x20]
    let c := { ofMemory rom {} with state := .running, pc := 0x0300, x := 2 }
    let d := { ofMemory silent {} with state := .running, pc := 0x0400, x := 2 }
    let ins : Instruction := ⟨0xCE, .dec, .absolute, 6⟩
    let row : Instruction := ⟨0xDE, .dec, .absoluteX, 7⟩
    let s := step.run c
    let t := step.run d
    (c.Finds ins 0 ∧ d.Finds row 0 ∧ row.mnemonic = ins.mnemonic) ∧
      s.state.memory.peek 0x8000 = 0 ∧ t.state.memory.peek 0x2002 = 0 ∧
      (∃ e e' w, s.writes = [(e, w)] ∧ t.writes = [(e', w)]) ∧ s.state.Alike t.state ∧
      ∃ w, Produced ins s w ∧ s.state.status.negative = w.toNat.testBit 7 := by
  intro rom silent c d ins row s t
  have hc : c.Finds ins 0 := by
    refine ⟨⟨rfl, rfl, rfl, ?_⟩, by decide, ⟨.absolute, some 0x8000, false⟩, ?_, ?_⟩ <;>
      decide +kernel
  have hd : d.Finds row 0 := by
    refine ⟨⟨rfl, rfl, rfl, ?_⟩, by decide, ⟨.absoluteX, some 0x2002, false⟩, ?_, ?_⟩ <;>
      decide +kernel
  obtain ⟨-, hsame, -, hproduced⟩ :=
    effect_of_operand_byte hc hd rfl (.inr (.inl (by decide)))
  obtain ⟨halike, hwrites⟩ := hsame (by decide) ⟨rfl, rfl, rfl, rfl, rfl⟩
  obtain ⟨w, hw, hnegative, -⟩ := hproduced (by decide)
  exact ⟨⟨hc, hd, rfl⟩, by decide +kernel, by decide +kernel, hwrites (by decide), halike,
    w, hw, hnegative⟩

end Cpu

end NesCore
