import NesCore.Cpu.Step
import NesCore.Proofs.Course.Execute

/-!
# The course of a step

A step enters an interrupt that is due (`entryDemands`) and then executes one instruction
(`nextDemands`) from the state that the entry leaves (`afterEntry`). `ends_step` puts the two
together: the step carries out these demands, and it fails if and only if one of them is refused,
with the fault of the first refused one and blaming the phase it belongs to (`stepError?`).

Main statement: `trace_of_step`.
-/

namespace NesCore.Cpu

open NesCore.Action

variable {c : Cpu}

/-! ## Interrupts -/

/-- The interrupt that a step enters. An NMI comes first; a masked IRQ is not entered. -/
def interruptDue (c : Cpu) : Option Interrupt :=
  if c.nmiPending then some .nmi
  else if c.irqPending ∧ ¬ c.status.interruptDisable then some .irq
  else none

/-- The bytes that an interrupt saves, in the order of the pushes. -/
def savedByEntry (c : Cpu) : List UInt8 :=
  [Word.high c.pc, Word.low c.pc, c.status.withoutBreak.toByte]

/-- The demands of entering an interrupt that is due. -/
def entryDemands (c : Cpu) : List Demand :=
  c.interruptDue.elim [] fun kind => pushDemands c.sp c.savedByEntry ++ vectorReads kind.vector

/-- The processor without the interrupt request that a step answers or drops. -/
def acknowledged (c : Cpu) : Cpu :=
  if c.nmiPending then { c with nmiPending := false } else { c with irqPending := false }

/-- The processor in the handler of an interrupt. -/
def entered (c : Cpu) (kind : Interrupt) : Cpu :=
  { c.pushed c.savedByEntry with
    status := { c.status with interruptDisable := true }
    pc := (c.pushed c.savedByEntry).peekWord kind.vector (kind.vector + 1)
    cycles := c.cycles + 7 }

/-- The processor that executes the instruction of a step. -/
def afterEntry (c : Cpu) : Cpu := c.interruptDue.elim c.acknowledged c.acknowledged.entered

/-- The address of the instruction of a step: PC, or the handler of an interrupt that is due. -/
def fetchAddress (c : Cpu) : UInt16 :=
  c.interruptDue.elim c.pc fun kind => c.peekWord kind.vector (kind.vector + 1)

/-- The pushes of an entry leave its vector alone. -/
theorem pc_entered (c : Cpu) (kind : Interrupt) :
    (c.entered kind).pc = c.peekWord kind.vector (kind.vector + 1) := by
  have hlow : romStart ≤ kind.vector := by cases kind <;> decide
  have hhigh : romStart ≤ kind.vector + 1 := by cases kind <;> decide
  show Word.make _ _ = Word.make _ _
  rw [peek_pushed_of_rom hlow, peek_pushed_of_rom hhigh]

theorem registers_acknowledged (c : Cpu) : c.acknowledged.toRegisters = c.toRegisters := by
  unfold acknowledged
  split <;> rfl

theorem pc_acknowledged (c : Cpu) : c.acknowledged.pc = c.pc :=
  congrArg Registers.pc (registers_acknowledged c)

theorem memory_acknowledged (c : Cpu) : c.acknowledged.memory = c.memory := by
  unfold acknowledged
  split <;> rfl

theorem pc_afterEntry (c : Cpu) : c.afterEntry.pc = c.fetchAddress := by
  unfold afterEntry fetchAddress
  cases c.interruptDue with
  | none => exact pc_acknowledged c
  | some kind =>
    show (c.acknowledged.entered kind).pc = c.peekWord kind.vector (kind.vector + 1)
    rw [pc_entered, peekWord, memory_acknowledged]
    rfl

theorem policy_afterEntry (c : Cpu) : c.afterEntry.memory.policy = c.memory.policy := by
  rw [← memory_acknowledged c]
  unfold afterEntry
  cases c.interruptDue with
  | none => rfl
  | some kind => exact policy_pushed _ _

theorem follows_enterInterrupt (origin : UInt16) (kind : Interrupt) :
    Follows (enterInterrupt origin kind) c
      (pushDemands c.sp c.savedByEntry ++ vectorReads kind.vector)
      fun _ s => s = c.entered kind := by
  unfold enterInterrupt savedByEntry
  refine .look_bind ?_
  rw [pushDemands_word, List.append_assoc]
  refine (follows_pushWord origin c.pc).andThen fun _ => (follows_push origin _).andThen fun _ => ?_
  exact (follows_enterHandler kind.vector).bind_nil fun _ s hs =>
    .update_bind (by rw [hs]; rfl) (.look_bind (.note (by rw [hs]; rfl)))

theorem follows_serviceInterrupts (origin : UInt16) :
    Follows (serviceInterrupts origin) c c.entryDemands
      fun kind s => kind = c.interruptDue ∧ s = c.afterEntry := by
  unfold serviceInterrupts entryDemands afterEntry
  refine .look_bind ?_
  by_cases hn : c.nmiPending
  · have hdue : c.interruptDue = some .nmi := if_pos hn
    have hack : c.acknowledged = { c with nmiPending := false } := if_pos hn
    rw [hdue, hack]
    refine .ite_pos hn (.update_bind rfl ?_)
    exact (follows_enterInterrupt origin .nmi).bind_nil fun _ s hs => .pure ⟨rfl, hs⟩
  have hack : c.acknowledged = { c with irqPending := false } := if_neg hn
  rw [hack]
  refine .ite_neg hn ?_
  by_cases hi : c.irqPending
  · refine .ite_pos hi (.update_bind rfl ?_)
    by_cases hm : c.status.interruptDisable
    · have hdue : c.interruptDue = none := by simp [interruptDue, hn, hm]
      rw [hdue]
      exact .ite_pos hm (.andThen (.note rfl) fun _ => .pure ⟨rfl, rfl⟩)
    · have hdue : c.interruptDue = some .irq := by simp [interruptDue, hn, hi, hm]
      rw [hdue]
      refine .ite_neg hm ?_
      exact (follows_enterInterrupt origin .irq).bind_nil fun _ s hs => .pure ⟨rfl, hs⟩
  · have hdue : c.interruptDue = none := by simp [interruptDue, hn, hi]
    have hc : { c with irqPending := false } = c := by rw [← Bool.eq_false_iff.2 hi]
    rw [hdue, hc]
    exact .ite_neg hi (.pure ⟨rfl, rfl⟩)

/-! ## Instructions -/

/-- The demands of an instruction, with PC behind the opcode: the bytes of the operand, those of
the pointer, the accesses to the operand and those to the stack. An immediate is its own operand
byte and not read again. -/
def instructionDemands (c : Cpu) (ins : Instruction) : List Demand :=
  c.operandReads ins.mode ++ c.pointerReads ins.mode
    ++ (if ins.mode = .immediate then [] else c.dataDemands ins.operation ins.mode)
    ++ c.stackDemands ins.operation

/-- The processor with PC behind the opcode. -/
def afterOpcode (c : Cpu) : Cpu := { c with pc := c.pc + 1 }

/-- The demands of the instruction at PC. -/
def nextDemands (c : Cpu) : List Demand :=
  .read c.pc :: .documented (c.memory.peek c.pc) ::
    (Instruction.lookup (c.memory.peek c.pc)).elim [] c.afterOpcode.instructionDemands

/-- The read of an immediate counts as its operand byte, whichever action makes it. -/
theorem instructionDemands_eq (c : Cpu) {ins : Instruction} (h : ins ∈ Instruction.table) :
    c.instructionDemands ins =
      c.resolveDemands ins.mode ++ (c.dataDemands ins.operation ins.mode
        ++ c.stackDemands ins.operation) := by
  unfold instructionDemands resolveDemands
  by_cases hm : ins.mode = .immediate
  · have ha : ins.operation.access = .read := (Instruction.admits h).immediate hm
    have hone : c.operandReads .immediate = [.read c.pc] := by
      simp [operandReads, Mode.operandLength]
    have hdata : c.dataDemands ins.operation .immediate = [.read c.pc] := by
      simp [dataDemands, ha, dataRead, effectiveAddress]
    rw [hm, if_pos rfl, if_pos rfl, hone, hdata]
    rfl
  · rw [if_neg hm, if_neg hm]
    simp only [List.append_assoc]

theorem follows_fetch :
    Follows fetch c [.read c.pc] fun v s => v = c.memory.peek c.pc ∧ s = c.afterOpcode := by
  unfold fetch
  exact .look_bind (.read_bind (.update_bind rfl (.pure ⟨rfl, rfl⟩)))

theorem follows_proceed (origin : UInt16) (ins : Instruction) (flow : Flow) :
    Follows (proceed origin ins flow) c [] fun _ _ => True := by
  cases flow with
  | next => exact .update rfl trivial
  | jump => exact .pure trivial
  | halt => exact .update_bind rfl (.note trivial)

theorem follows_executeNext : Follows (executeNext c.pc) c c.nextDemands fun _ _ => True := by
  unfold executeNext nextDemands
  show Follows _ c ([.read c.pc] ++ _) _
  refine .bind follows_fetch fun opcode s hs => ?_
  obtain ⟨rfl, rfl⟩ := hs
  cases hl : Instruction.lookup (c.memory.peek c.pc) with
  | none =>
    have hd : ¬ c.afterOpcode.terms.Grants (.documented (c.memory.peek c.pc)) := by
      simp [Terms.Grants, hl]
    exact .fail hd rfl []
  | some ins =>
    have hd : c.afterOpcode.terms.Grants (.documented (c.memory.peek c.pc)) := by
      simp [Terms.Grants, hl]
    have hrow := Instruction.mem_table_of_lookup hl
    refine .granted hd rfl ?_
    show Follows _ _ (c.afterOpcode.instructionDemands ins) _
    rw [instructionDemands_eq _ hrow]
    refine (follows_resolve ins.mode).bind fun operand s hs => ?_
    obtain ⟨rfl, rfl⟩ := hs
    have hadmits := Instruction.admits hrow
    refine .bind_nil (follows_execute ins.operation hadmits rfl) fun flow _ _ => ?_
    exact (follows_proceed c.pc ins flow).bind_nil fun _ _ _ =>
      .update_pure rfl trivial

/-! ## Steps -/

/-- The demands of a step of a running processor. -/
def stepDemands (c : Cpu) : List Demand := c.entryDemands ++ c.afterEntry.nextDemands

/-- The error of a step of a running processor. An entry blames the interrupted instruction. -/
def stepError? (c : Cpu) : Option CpuError :=
  ((c.terms.firstRefused c.entryDemands).map fun d => ⟨c.pc, d.fault⟩).or
    ((c.terms.firstRefused c.afterEntry.nextDemands).map fun d => ⟨c.afterEntry.pc, d.fault⟩)

theorem ends_runningStep (c : Cpu) :
    runningStep.Ends c (c.terms.carriedOut c.stepDemands) c.stepError? fun _ _ => True := by
  have hentry := Ends.mapError (CpuError.mk c.pc) (follows_serviceInterrupts (c := c) c.pc)
  have hnext := Ends.mapError (CpuError.mk c.afterEntry.pc)
    (follows_executeNext (c := c.afterEntry))
  unfold stepDemands stepError? runningStep
  rw [Terms.carriedOut_append]
  rw [Option.map_map] at hentry hnext
  have hnone : (c.terms.firstRefused c.entryDemands = none) =
      ((c.terms.firstRefused c.entryDemands).map (CpuError.mk c.pc ∘ Demand.fault) = none) := by
    simp
  simp only [hnone]
  refine .look_bind (.bind hentry fun kind s hs => ?_)
  obtain ⟨hterms, -, rfl⟩ := hs
  rw [hterms] at hnext
  exact .look_bind (.bind_nil hnext fun _ _ _ => .look_bind (.pure trivial))

theorem accesses_faultedOnError {α : Type} (o : Outcome Cpu CpuError α) :
    (faultedOnError o).accesses = o.accesses := by
  unfold faultedOnError
  split <;> rfl

theorem result_faultedOnError {α : Type} (o : Outcome Cpu CpuError α) :
    (faultedOnError o).result = o.result := by
  unfold faultedOnError
  split <;> rfl

theorem events_step_of_not_running (h : c.state ≠ .running) : (step.run c).events = [] := by
  cases hs : c.state with
  | running => exact absurd hs h
  | halted => rw [run_step_of_halted hs]
  | resetPending => rw [run_step_of_not_ready (.inl hs)]
  | faulted => rw [run_step_of_not_ready (.inr hs)]

/-- A step of a running processor carries out its demands. -/
theorem ends_step (h : c.state = .running) :
    step.Ends c (c.terms.carriedOut c.stepDemands) c.stepError? fun _ _ => True := by
  have hrunning := ends_runningStep c
  unfold Ends at hrunning ⊢
  rw [run_step_of_running h, accesses_faultedOnError, result_faultedOnError]
  exact hrunning

/-- **The bus trace of a step.** A running processor makes the accesses of an interrupt entry that
is due and those of the instruction it then finds, each in its order, up to the first demand that
is refused. The step fails if and only if there is one. -/
theorem trace_of_step (h : c.state = .running) :
    (step.run c).accesses = c.terms.carriedOut (c.entryDemands ++ c.afterEntry.nextDemands) ∧
      match c.stepError? with
      | some e => (step.run c).result = .error e
      | none => ∃ o, (step.run c).result = .ok o := by
  obtain ⟨haccesses, hresult⟩ := ends_step h
  refine ⟨haccesses, ?_⟩
  cases he : c.stepError? with
  | some e => rwa [he] at hresult
  | none =>
    rw [he] at hresult
    exact hresult.imp fun o ho => ho.1

/-- An NMI before `INC $0E,X` with X = 2: the entry, the fetches and the change of one byte. -/
theorem trace_of_step_nmi_inc :
    let memory := ((Memory.blank .flat).setCell 0x0000 0xF6).setCell 0x0001 0x0E
    let c := { ofMemory memory {} with state := .running, nmiPending := true, pc := 0x1234, x := 2 }
    c.state = .running ∧ (step.run c).accesses =
      [.write 0x01FD 0x12, .write 0x01FC 0x34, .write 0x01FB 0x24, .read 0xFFFA, .read 0xFFFB,
        .read 0x0000, .read 0x0001, .read 0x0010, .write 0x0010 0x01] := by
  intro memory c
  have h : c.state = .running := rfl
  refine ⟨h, (trace_of_step h).1.trans ?_⟩
  decide +kernel

end NesCore.Cpu
