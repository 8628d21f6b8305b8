import NesCore.Proofs.Course.Reset
import NesCore.Proofs.Course.Writes
import NesCore.Proofs.CutRuns
import NesCore.Proofs.Invariant
import NesCore.Proofs.Lifecycle

/-!
# Bits 4 and 5 of the status register

A program cannot set bit 4 of P nor clear bit 5: no instruction names them, and a byte pulled into P
loses the one and gains the other. Every action of a step keeps P disciplined (`disciplined_step`),
and so do runs and any other calls that follow a reset. The copies of P that are pushed are made
from any P, disciplined or not (`Status.IsCopy`): bit 5 is set in all of them, and bit 4 tells
software from an interrupt entry. `stepWrites` says which bytes a step pushes, so that no copy is
left out.

Main statement: `status_discipline`.
-/

namespace NesCore

/-! ## The register and its copies -/

namespace Status

/-- Bit 5 is set and bit 4 is clear. -/
structure Disciplined (p : Status) : Prop where
  unused : p.unused = true
  brk : p.brk = false

theorem disciplined_withoutBreak (p : Status) : p.withoutBreak.Disciplined := ⟨rfl, rfl⟩

theorem disciplined_afterReset : afterReset.Disciplined := ⟨by decide, by decide⟩

theorem Disciplined.set {p : Status} (h : p.Disciplined) {f : Flag} (hu : f ≠ .unused)
    (hb : f ≠ .brk) (on : Bool) : (p.set f on).Disciplined where
  unused := by
    have hget := p.get_set f .unused on
    rw [if_neg hu.symm] at hget
    exact hget.trans h.unused
  brk := by
    have hget := p.get_set f .brk on
    rw [if_neg hb.symm] at hget
    exact hget.trans h.brk

/-- The byte is a copy of the register, made by software or by an interrupt entry. -/
structure IsCopy (p : Status) (software : Bool) (b : UInt8) : Prop where
  unused : b.toNat.testBit 5 = true
  brk : b.toNat.testBit 4 = software
  others : ∀ f, f ≠ .unused → f ≠ .brk → (ofByte b).get f = p.get f

theorem isCopy_toByte (p : Status) (software : Bool) :
    p.IsCopy software { p with unused := true, brk := software }.toByte := by
  let copied : Status := { p with unused := true, brk := software }
  refine
    { unused := congrArg Status.unused (ofByte_toByte copied)
      brk := congrArg Status.brk (ofByte_toByte copied)
      others := fun f hu hb => ?_ }
  rw [ofByte_toByte]
  cases f with
  | unused => exact absurd rfl hu
  | brk => exact absurd rfl hb
  | _ => rfl

theorem isCopy_withoutBreak (p : Status) : p.IsCopy false p.withoutBreak.toByte :=
  p.isCopy_toByte false

theorem isCopy_pushedBySoftware (p : Status) : p.IsCopy true p.pushedBySoftware.toByte :=
  p.isCopy_toByte true

end Status

/-! ## What instructions set and push -/

/-- The operation does not set or clear bit 4 or 5. -/
def Operation.sparesBreak : Operation → Bool
  | .setFlag .unused _ | .setFlag .brk _ => false
  | _ => true

theorem Instruction.sparesBreak_of_mem {ins : Instruction} (h : ins ∈ table) :
    ins.operation.sparesBreak = true := by
  have key : ∀ row ∈ table, row.operation.sparesBreak = true := by decide +kernel
  exact key ins h

/-- The opcodes of `BRK`, `PHP`, `JSR` and `PHA`. -/
def Instruction.pushOpcodes : List UInt8 := [0x00, 0x08, 0x20, 0x48]

theorem Instruction.not_pushes_of_lookup {opcode : UInt8} {ins : Instruction}
    (h : lookup opcode = some ins) (hopcode : opcode ∉ pushOpcodes) :
    ins.operation.pushes = false := by
  have key : ∀ row ∈ table, row.opcode ∉ pushOpcodes → row.operation.pushes = false := by
    decide +kernel
  exact key ins (mem_table_of_lookup h) (opcode_of_lookup h ▸ hopcode)

namespace Cpu

open NesCore.Action

variable {η α : Type}

/-! ## Actions that keep P disciplined -/

/-- The status register is disciplined. -/
def Disciplined (c : Cpu) : Prop := c.status.Disciplined

/-- A change that leaves bits 4 and 5 of P alone. -/
theorem disciplined_update {ε : Type} {f : Cpu → Cpu}
    (hf : ∀ c, (f c).status.unused = c.status.unused ∧ (f c).status.brk = c.status.brk) :
    Keeps Disciplined (update f : Action Cpu ε Unit) :=
  .update fun c h => ⟨(hf c).1.trans h.unused, (hf c).2.trans h.brk⟩

theorem disciplined_onBus (x : Action Memory BusError α) : Keeps Disciplined (onBus x) :=
  fun _ h => h

theorem disciplined_write (a : UInt16) (v : UInt8) : Keeps Disciplined (write a v) :=
  disciplined_onBus _

theorem disciplined_checkWrap (origin : UInt16) (wrap : StackWrap) :
    Keeps Disciplined (checkWrap origin wrap) := by
  unfold checkWrap
  refine .bind (.look _) fun c => ?_
  cases c.config.stackCheck with
  | off => exact .pure _
  | warn => exact .note _
  | fatal => exact .fail _

theorem disciplined_push (origin : UInt16) (v : UInt8) : Keeps Disciplined (push origin v) := by
  have hrest (sp : UInt8) : Keeps Disciplined (do
      write (stackAddress sp) v
      update fun c => c.setRegister .sp (sp - 1)) :=
    .bind (disciplined_write _ _) fun _ => disciplined_update fun _ => ⟨rfl, rfl⟩
  unfold push
  exact .bind (.look _) fun sp =>
    .ite (.bind (disciplined_checkWrap _ _) fun _ => hrest sp) (hrest sp)

theorem disciplined_pull (origin : UInt16) : Keeps Disciplined (pull origin) := by
  have hrest (sp : UInt8) : Keeps Disciplined (do
      update fun c => c.setRegister .sp (sp + 1)
      read (stackAddress (sp + 1))) :=
    .bind (disciplined_update fun _ => ⟨rfl, rfl⟩) fun _ => (still_read _).keeps
  unfold pull
  exact .bind (.look _) fun sp =>
    .ite (.bind (disciplined_checkWrap _ _) fun _ => hrest sp) (hrest sp)

theorem disciplined_pushWord (origin w : UInt16) : Keeps Disciplined (pushWord origin w) :=
  .bind (disciplined_push _ _) fun _ => disciplined_push _ _

theorem disciplined_pullWord (origin : UInt16) : Keeps Disciplined (pullWord origin) :=
  .bind (disciplined_pull _) fun _ => .bind (disciplined_pull _) fun _ => .pure _

theorem disciplined_writeOperand (operand : Operand) (v : UInt8) :
    Keeps Disciplined (writeOperand operand v) := by
  unfold writeOperand
  split
  · exact disciplined_update fun _ => ⟨rfl, rfl⟩
  · exact .fail _
  · exact disciplined_write _ _
  · exact .fail _

/-- Whatever byte is pulled, P is disciplined after it. -/
theorem disciplined_pullStatusByte (origin : UInt16) : Keeps Disciplined (pullStatusByte origin) :=
  .bind (disciplined_pull _) fun p => .update fun _ _ =>
    (Status.ofByte p).disciplined_withoutBreak

theorem disciplined_enterHandler (vector : UInt16) : Keeps Disciplined (enterHandler vector) :=
  .bind (disciplined_update fun _ => ⟨rfl, rfl⟩) fun _ =>
    .bind (still_readWord _).keeps fun _ => disciplined_update fun _ => ⟨rfl, rfl⟩

theorem disciplined_softwareInterrupt (origin : UInt16) :
    Keeps Disciplined (softwareInterrupt origin) :=
  .bind (disciplined_pushWord _ _) fun _ => .bind (.look _) fun _ =>
    .bind (disciplined_push _ _) fun _ => .bind (disciplined_enterHandler _) fun _ => .pure _

theorem disciplined_takeBranch (operand : Operand) : Keeps Disciplined (takeBranch operand) :=
  .bind (still_operandAddress _).keeps fun _ =>
    .bind (disciplined_update fun _ => ⟨rfl, rfl⟩) fun _ => .pure _

theorem disciplined_setResult (register : Register) (v : UInt8) :
    Keeps Disciplined (setResult register v) :=
  disciplined_update fun _ => by cases register <;> exact ⟨rfl, rfl⟩

/-- The step lemma for operations, one case for each. -/
theorem disciplined_execute {operation : Operation} (h : operation.sparesBreak = true)
    (origin : UInt16) (operand : Operand) :
    Keeps Disciplined (execute origin operation operand) := by
  unfold execute
  refine .bind (.look _) fun c => ?_
  cases operation with
  | load | logic =>
    exact .bind (still_readOperand _).keeps fun _ =>
      .bind (disciplined_setResult _ _) fun _ => .pure _
  | add | subtract | compare | bitTest =>
    exact .bind (still_readOperand _).keeps fun _ =>
      .bind (disciplined_update fun _ => ⟨rfl, rfl⟩) fun _ => .pure _
  | store => exact .bind (disciplined_writeOperand _ _) fun _ => .pure _
  | transfer source target =>
    cases target with
    | sp => exact .bind (disciplined_update fun _ => ⟨rfl, rfl⟩) fun _ => .pure _
    | a | x | y => exact .bind (disciplined_setResult _ _) fun _ => .pure _
  | pushAccumulator | pushStatus => exact .bind (disciplined_push _ _) fun _ => .pure _
  | pullAccumulator =>
    exact .bind (disciplined_pull _) fun _ => .bind (disciplined_setResult _ _) fun _ => .pure _
  | pullStatus => exact .bind (disciplined_pullStatusByte _) fun _ => .pure _
  | shift | stepOperand =>
    exact .bind (still_readOperand _).keeps fun _ => .bind (disciplined_writeOperand _ _) fun _ =>
      .bind (disciplined_update fun _ => ⟨rfl, rfl⟩) fun _ => .pure _
  | stepRegister => exact .bind (disciplined_setResult _ _) fun _ => .pure _
  | branch => exact .ite (disciplined_takeBranch _) (.pure _)
  | jump =>
    exact .bind (still_operandAddress _).keeps fun _ =>
      .bind (disciplined_update fun _ => ⟨rfl, rfl⟩) fun _ => .pure _
  | call =>
    exact .bind (still_operandAddress _).keeps fun _ => .bind (disciplined_pushWord _ _) fun _ =>
      .bind (disciplined_update fun _ => ⟨rfl, rfl⟩) fun _ => .pure _
  | returnFromCall =>
    exact .bind (disciplined_pullWord _) fun _ =>
      .bind (disciplined_update fun _ => ⟨rfl, rfl⟩) fun _ => .pure _
  | returnFromInterrupt =>
    exact .bind (disciplined_pullStatusByte _) fun _ => .bind (disciplined_pullWord _) fun _ =>
      .bind (disciplined_update fun _ => ⟨rfl, rfl⟩) fun _ => .pure _
  | brk =>
    dsimp only [id]
    cases c.config.brk with
    | halt => exact .pure _
    | interrupt => exact disciplined_softwareInterrupt _
  | setFlag flag value =>
    refine .bind (.update fun c hc => ?_) fun _ => .pure _
    have hu : flag ≠ .unused := by rintro rfl; cases h
    have hb : flag ≠ .brk := by rintro rfl; cases h
    exact Status.Disciplined.set hc hu hb value
  | nop => exact .pure _

theorem disciplined_enterInterrupt (origin : UInt16) (kind : Interrupt) :
    Keeps Disciplined (enterInterrupt origin kind) :=
  .bind (.look _) fun _ => .bind (disciplined_pushWord _ _) fun _ =>
    .bind (disciplined_push _ _) fun _ => .bind (disciplined_enterHandler _) fun _ =>
      .bind (disciplined_update fun _ => ⟨rfl, rfl⟩) fun _ => .bind (.look _) fun _ => .note _

theorem disciplined_serviceInterrupts (origin : UInt16) :
    Keeps Disciplined (serviceInterrupts origin) := by
  unfold serviceInterrupts
  refine .bind (.look _) fun c => .ite ?nmi (.ite ?irq (.pure _))
  case nmi =>
    exact .bind (disciplined_update fun _ => ⟨rfl, rfl⟩) fun _ =>
      .bind (disciplined_enterInterrupt _ _) fun _ => .pure _
  case irq =>
    refine .bind (disciplined_update fun _ => ⟨rfl, rfl⟩) fun _ => .ite ?masked ?entered
    case masked => exact .bind (.note _) fun _ => .pure _
    case entered => exact .bind (disciplined_enterInterrupt _ _) fun _ => .pure _

theorem disciplined_proceed (origin : UInt16) (ins : Instruction) (flow : Flow) :
    Keeps Disciplined (proceed origin ins flow) := by
  cases flow with
  | next => exact disciplined_update fun _ => ⟨rfl, rfl⟩
  | jump => exact .pure _
  | halt => exact .bind (disciplined_update fun _ => ⟨rfl, rfl⟩) fun _ => .note _

theorem disciplined_executeNext (origin : UInt16) : Keeps Disciplined (executeNext origin) := by
  have hfetch : Keeps Disciplined fetch :=
    .bind (.look _) fun _ => .bind (still_read _).keeps fun _ =>
      .bind (disciplined_update fun _ => ⟨rfl, rfl⟩) fun _ => .pure _
  unfold executeNext
  refine .bind hfetch fun opcode => ?_
  cases hl : Instruction.lookup opcode with
  | none => exact .fail _
  | some ins =>
    have hspares := Instruction.sparesBreak_of_mem (Instruction.mem_table_of_lookup hl)
    exact .bind (still_resolve _).keeps fun operand =>
      .bind (disciplined_execute hspares _ _) fun flow => .bind (disciplined_proceed _ _ _) fun _ =>
        .bind (disciplined_update fun _ => ⟨rfl, rfl⟩) fun _ => .pure _

theorem disciplined_runningStep : Keeps Disciplined runningStep :=
  .bind (.look _) fun _ => .bind (.mapError (disciplined_serviceInterrupts _) _) fun _ =>
    .bind (.look _) fun _ => .bind (.mapError (disciplined_executeNext _) _) fun _ =>
      .bind (.look _) fun _ => .pure _

theorem disciplined_step : Keeps Disciplined step := by
  intro c h
  cases hs : c.state with
  | running =>
    have hr := disciplined_runningStep c h
    rw [run_step_of_running hs]
    unfold faultedOnError
    split
    · exact hr
    · exact hr
  | halted => rwa [run_step_of_halted hs]
  | resetPending => rwa [run_step_of_not_ready (.inl hs)]
  | faulted => rwa [run_step_of_not_ready (.inr hs)]

/-! ## Calls -/

/-- A reset sets P, whatever it was before. -/
theorem disciplined_reset (c : Cpu) : (reset.run c).state.Disciplined := by
  rw [run_reset]
  exact Status.disciplined_afterReset

/-- What a single call keeps. -/
theorem disciplined_call {c : Cpu} (h : c.Disciplined) {a : Call η}
    (ha : ∀ r, a ≠ .setRegisters r) : (c.call a).Disciplined := by
  cases a with
  | reset => exact disciplined_reset c
  | step => exact disciplined_step c h
  | run host start steps =>
    have hrun : Keeps (fun s => s.cpu.Disciplined) (runFor host steps) :=
      keeps_runFor disciplined_step (fun _ _ _ hc => hc) steps
    exact hrun ⟨start, c⟩ h
  | triggerNmi | triggerIrq | configure => exact h
  | setRegisters r => exact absurd rfl (ha r)

/-- What every sequence of calls keeps. -/
theorem disciplined_perform {c : Cpu} (h : c.Disciplined) {calls : List (Call η)}
    (hcalls : ∀ r, .setRegisters r ∉ calls) : (c.perform calls).Disciplined := by
  induction calls generalizing c with
  | nil => exact h
  | cons a rest ih =>
    have hfirst : (c.call a).Disciplined :=
      disciplined_call h fun r ha => hcalls r (ha ▸ List.mem_cons_self)
    exact ih hfirst fun r hr => hcalls r (List.mem_cons_of_mem a hr)

/-! ## Pushed copies -/

/-- What a step of a running processor writes: first the bytes that the entry of an interrupt saves,
then those that the instruction pushes or puts into its operand. -/
structure StepWrites (c : Cpu) (entry instruction : List (UInt16 × UInt8)) : Prop where
  /-- A step that fails may have made only the first of them. -/
  made : (step.run c).Writes (entry ++ instruction)
  noEntry : c.interruptDue = none → entry = []
  /-- An entry saves PC and then P, before it disables interrupts. -/
  someEntry : ∀ kind, c.interruptDue = some kind → ∃ p, c.status.IsCopy false p ∧
    entry = pushWrites c.sp [Word.high c.pc, Word.low c.pc, p]
  /-- The entry changes no other flag of P. -/
  status : c.afterEntry.status =
    if c.interruptDue = none then c.status else { c.status with interruptDisable := true }
  php : c.fetchedOpcode = 0x08 → ∃ p, c.afterEntry.status.IsCopy true p ∧
    instruction = pushWrites c.afterEntry.sp [p]
  brk : c.fetchedOpcode = 0x00 → c.config.brk = .interrupt →
    ∃ p, c.afterEntry.status.IsCopy true p ∧ instruction = pushWrites c.afterEntry.sp
      [Word.high (c.fetchAddress + 2), Word.low (c.fetchAddress + 2), p]
  haltingBrk : c.fetchedOpcode = 0x00 → c.config.brk = .halt → instruction = []
  pha : c.fetchedOpcode = 0x48 → instruction = pushWrites c.afterEntry.sp [c.afterEntry.a]
  jsr : c.fetchedOpcode = 0x20 → instruction = pushWrites c.afterEntry.sp
    [Word.high (c.fetchAddress + 2), Word.low (c.fetchAddress + 2)]
  /-- Any other instruction pushes nothing. -/
  other : c.fetchedOpcode ∉ Instruction.pushOpcodes → instruction.length ≤ 1 ∧
    ∀ w ∈ instruction, ∃ ins, Instruction.lookup c.fetchedOpcode = some ins ∧
      ins.operation.access ≠ .none ∧ c.ready.effectiveAddress ins.mode = some w.1

theorem status_afterEntry (c : Cpu) :
    c.afterEntry.status =
      if c.interruptDue = none then c.status else { c.status with interruptDisable := true } := by
  have hack : c.acknowledged.status = c.status :=
    congrArg Registers.status (registers_acknowledged c)
  unfold afterEntry
  cases c.interruptDue with
  | none => exact hack
  | some kind =>
    show { c.acknowledged.status with interruptDisable := true } = _
    rw [hack, if_neg (Option.some_ne_none kind)]

section Row

variable {c : Cpu} {ins : Instruction}
  (hl : Instruction.lookup (c.memory.peek c.pc) = some ins)

include hl

/-- An instruction that does not access its operand writes what it pushes. -/
theorem instructionWrites_of_access_none (hnone : ins.operation.access = .none) :
    c.instructionWrites = (c.afterOpcode.stackDemands ins.operation).filterMap Demand.written? := by
  have hdata : c.afterOpcode.dataDemands ins.operation ins.mode = [] := by
    simp [dataDemands, hnone]
  rw [instructionWrites_of_documented hl, hdata]
  rfl

theorem instructionWrites_of_not_pushes (hpush : ins.operation.pushes = false) :
    c.instructionWrites.length ≤ 1 ∧ ∀ w ∈ c.instructionWrites,
      ins.operation.access ≠ .none ∧ c.afterOpcode.effectiveAddress ins.mode = some w.1 := by
  rw [instructionWrites_of_documented hl, written?_stackDemands_of_not_pushes hpush,
    List.append_nil]
  obtain ⟨_, rfl, h⟩ := written?_dataDemands c.afterOpcode ins.operation ins.mode
  exact h

end Row

theorem stepWrites {c : Cpu} (h : c.state = .running) :
    StepWrites c c.entryWrites c.afterEntry.instructionWrites := by
  have hconfig : c.ready.config = c.config := (keeps_afterEntry c).2
  have hfetched : c.afterEntry.memory.peek c.afterEntry.pc = c.fetchedOpcode := by
    rw [pc_afterEntry]
    rfl
  have hreturn : c.ready.pc + 1 = c.fetchAddress + 2 := by
    show c.afterEntry.pc + 1 + 1 = c.fetchAddress + 2
    rw [pc_afterEntry, UInt16.add_assoc]
    rfl
  -- The writes of an opcode whose row is known and has no operand on the bus.
  have hrow {opcode : UInt8} {ins : Instruction} (hop : c.fetchedOpcode = opcode)
      (hins : Instruction.lookup opcode = some ins) (hnone : ins.operation.access = .none) :
      c.afterEntry.instructionWrites =
        (c.ready.stackDemands ins.operation).filterMap Demand.written? :=
    instructionWrites_of_access_none (by rw [hfetched, hop, hins]) hnone
  have hbrk (hop : c.fetchedOpcode = 0x00) := @hrow _ ⟨0x00, .brk, .implied, 7⟩ hop rfl rfl
  refine
    { made := writes_step h
      noEntry := fun hdue => by rw [entryWrites_eq, hdue]; rfl
      someEntry := fun kind hdue =>
        ⟨_, c.status.isCopy_withoutBreak, by rw [entryWrites_eq, hdue]; rfl⟩
      status := status_afterEntry c
      php := fun hop => ⟨_, c.afterEntry.status.isCopy_pushedBySoftware, ?php⟩
      brk := fun hop hmode => ⟨_, c.afterEntry.status.isCopy_pushedBySoftware, ?brk⟩
      haltingBrk := fun hop hmode => ?haltingBrk
      pha := fun hop => ?pha
      jsr := fun hop => ?jsr
      other := fun hop => ?other }
  case php =>
    rw [@hrow _ ⟨0x08, .php, .implied, 3⟩ hop rfl rfl]
    exact written?_pushDemands _ _
  case brk =>
    rw [hbrk hop, ← hreturn]
    show (stackDemands _ .brk).filterMap Demand.written? = _
    rw [stackDemands, hconfig, hmode]
    show (pushDemands _ _ ++ vectorReads irqVector).filterMap Demand.written? = _
    rw [List.filterMap_append, written?_pushDemands]
    exact List.append_nil _
  case haltingBrk =>
    rw [hbrk hop]
    show (stackDemands _ .brk).filterMap Demand.written? = _
    rw [stackDemands, hconfig, hmode]
    rfl
  case pha =>
    rw [@hrow _ ⟨0x48, .pha, .implied, 3⟩ hop rfl rfl]
    exact written?_pushDemands _ _
  case jsr =>
    rw [@hrow _ ⟨0x20, .jsr, .absolute, 6⟩ hop rfl rfl, ← hreturn]
    exact written?_pushDemands _ _
  case other =>
    cases hl : Instruction.lookup c.fetchedOpcode with
    | none =>
      rw [instructionWrites_of_undocumented (by rw [hfetched, hl])]
      exact ⟨Nat.zero_le 1, List.forall_mem_nil _⟩
    | some ins =>
      have hpush := Instruction.not_pushes_of_lookup hl hop
      obtain ⟨hlength, hmem⟩ := instructionWrites_of_not_pushes (c := c.afterEntry)
        (by rw [hfetched, hl]) hpush
      exact ⟨hlength, fun w hw => ⟨ins, rfl, hmem w hw⟩⟩

/-! ## All calls -/

theorem writes_step_of_not_running {c : Cpu} (h : c.state ≠ .running) :
    (step.run c).writes = [] := by
  unfold Outcome.writes Outcome.accesses
  rw [events_step_of_not_running h]
  rfl

/-- What a run writes are the writes of its steps, one after the other. -/
theorem writes_runFor (host : Host η) (n : Nat) (s : Hosted η) :
    ((runFor host n).run s).writes =
      (attempts host n s).flatMap fun c => (step.run c).writes := by
  unfold Outcome.writes Outcome.accesses
  rw [events_runFor, List.filterMap_flatMap, List.filterMap_flatMap]

/-- **Discipline of the status register.** After a reset and any calls that set no registers, P has
bit 5 set and bit 4 clear. Whatever P is, every copy of it that is pushed has bit 5 set, bit 4 as it
is due and the other bits of P: what a step of a running processor writes is given by `StepWrites`,
other steps and resets write nothing, and a run writes what its steps write. -/
theorem status_discipline :
    (∀ (c : Cpu) (calls : List (Call η)), (∀ r, .setRegisters r ∉ calls) →
      ((c.call (.reset : Call η)).perform calls).status.Disciplined) ∧
    (∀ c, c.state = .running → ∃ entry instruction, StepWrites c entry instruction) ∧
    (∀ c, c.state ≠ .running → (step.run c).writes = []) ∧
    (∀ c, (reset.run c).writes = []) ∧
    ∀ (host : Host η) (n : Nat) (s : Hosted η),
      ((runFor host n).run s).writes =
        (attempts host n s).flatMap fun c => (step.run c).writes := by
  refine ⟨fun c calls hcalls => ?after, fun c h => ⟨_, _, stepWrites h⟩,
    fun c h => writes_step_of_not_running h, fun c => ?reset, writes_runFor⟩
  case after => exact disciplined_perform (disciplined_reset c) hcalls
  case reset =>
    rw [run_reset]
    rfl

/-- `PLP` of a byte with bit 4 and without bit 5, and then `PHP`. -/
theorem status_discipline_of_plp_php :
    let memory := ((Memory.blank .flat).loadProgram 0x0300 [0x28, 0x08]).load 0x01FE [0xDF]
    let calls : List (Call Unit) := [.step]
    let s := ((ofMemory memory {}).call (.reset : Call Unit)).perform calls
    (∀ r, .setRegisters r ∉ calls) ∧ s.status.toByte = 0xEF ∧ s.status.Disciplined ∧
      s.state = .running ∧ ∃ p, s.status.IsCopy true p ∧ (step.run s).Writes [(0x01FE, p)] := by
  intro memory calls s
  obtain ⟨hafter, hsteps, -⟩ := status_discipline (η := Unit)
  have hcalls : ∀ r, .setRegisters r ∉ calls := fun r => by simp [calls]
  have hrun : s.state = .running := by decide +kernel
  obtain ⟨entry, instruction, hw⟩ := hsteps s hrun
  have hentry : entry = [] := hw.noEntry (by decide +kernel)
  obtain ⟨p, hcopy, hinstruction⟩ := hw.php (by decide +kernel)
  have hstatus : s.afterEntry.status = s.status := hw.status.trans (if_pos (by decide +kernel))
  have hsp : s.afterEntry.sp = 0xFE := by decide +kernel
  rw [hstatus] at hcopy
  have hmade := hw.made
  rw [hentry, hinstruction, hsp] at hmade
  have hs : ((ofMemory memory {}).call .reset).perform calls = s := rfl
  have hdisciplined := hafter (ofMemory memory {}) calls hcalls
  rw [hs] at hdisciplined
  exact ⟨hcalls, by decide +kernel, hdisciplined, hrun, p, hcopy, hmade⟩

end Cpu

end NesCore
