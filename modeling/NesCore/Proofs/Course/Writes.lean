import NesCore.Proofs.Course.Success

/-!
# The writes of a step

Leaving the reads aside, what is left of the course of a step are the bytes that an interrupt entry
saves (`entryWrites`), and then those that the instruction pushes or puts into its operand
(`instructionWrites`). `writes_step` reads them off the demands of the step: a step that is cut
short by a refusal has made the first of them.
-/

namespace NesCore

/-- The address and the value of a write. -/
def BusAccess.written? : BusAccess → Option (UInt16 × UInt8)
  | read _ => none
  | write a v => some (a, v)

/-- The write that a demand makes. -/
def Demand.written? (d : Demand) : Option (UInt16 × UInt8) := d.access?.bind BusAccess.written?

/-- The writes of an outcome, in order. -/
def Outcome.writes {σ ε α : Type} (o : Outcome σ ε α) : List (UInt16 × UInt8) :=
  o.accesses.filterMap BusAccess.written?

/-- The outcome makes these writes, and if it is an error perhaps only the first of them. -/
def Outcome.Writes {σ ε α : Type} (o : Outcome σ ε α) (ws : List (UInt16 × UInt8)) : Prop :=
  o.writes <+: ws ∧ ∀ a, o.result = .ok a → o.writes = ws

/-- The operation pushes something. -/
def Operation.pushes : Operation → Bool
  | .pushAccumulator | .pushStatus | .call | .brk => true
  | _ => false

/-! ## Writes among demands -/

namespace Terms

variable {t : Terms} {d : Demand} {ds : List Demand}

theorem filterMap_written?_carriedOut_cons (h : t.Grants d) :
    (t.carriedOut (d :: ds)).filterMap BusAccess.written? =
      d.written?.toList ++ (t.carriedOut ds).filterMap BusAccess.written? := by
  rw [carriedOut_cons_of_grants h, List.filterMap_append]
  cases d <;> rfl

/-- What is carried out of a sequence of demands makes the first of their writes. -/
theorem writes_carriedOut (t : Terms) (ds : List Demand) :
    (t.carriedOut ds).filterMap BusAccess.written? <+: ds.filterMap Demand.written? := by
  induction ds with
  | nil => exact List.prefix_rfl
  | cons d ds ih =>
    have hcons : (d :: ds).filterMap Demand.written? =
        d.written?.toList ++ ds.filterMap Demand.written? := by
      cases h : d.written? <;> simp [h]
    rw [hcons]
    by_cases h : t.Grants d
    · rw [filterMap_written?_carriedOut_cons h]
      exact (List.prefix_append_right_inj _).2 ih
    · have hsingle : (t.carriedOut (d :: ds)).filterMap BusAccess.written? = d.written?.toList := by
        rw [carriedOut_cons_of_not_grants h]
        cases d with
        | access x => cases x <;> rfl
        | stackRoom wrap sp => rfl
        | documented opcode => rfl
      rw [hsingle]
      exact List.prefix_append _ _

theorem writes_carriedOut_of_granted (h : t.firstRefused ds = none) :
    (t.carriedOut ds).filterMap BusAccess.written? = ds.filterMap Demand.written? := by
  induction ds with
  | nil => rfl
  | cons d ds ih =>
    by_cases hd : t.Grants d
    · rw [firstRefused_cons_of_grants hd] at h
      rw [filterMap_written?_carriedOut_cons hd, ih h]
      cases hw : d.written? <;> simp [hw]
    · rw [firstRefused_cons_of_not_grants hd] at h
      cases h

end Terms

namespace Cpu

open NesCore.Action

variable {c : Cpu}

/-! ## The stack -/

/-- The writes of pushing bytes one after the other. -/
def pushWrites (sp : UInt8) : List UInt8 → List (UInt16 × UInt8)
  | [] => []
  | v :: rest => (stackAddress sp, v) :: pushWrites (sp - 1) rest

theorem written?_pushDemands (sp : UInt8) (bytes : List UInt8) :
    (pushDemands sp bytes).filterMap Demand.written? = pushWrites sp bytes := by
  induction bytes generalizing sp with
  | nil => rfl
  | cons v rest ih =>
    have hwrite : (Demand.write (stackAddress sp) v).written? = some (stackAddress sp, v) := rfl
    have hroom : (roomToPush sp).filterMap Demand.written? = [] := by
      unfold roomToPush
      split <;> rfl
    rw [pushDemands, List.filterMap_append, hroom, List.filterMap_cons_some hwrite, ih]
    rfl

theorem written?_pullDemands (sp : UInt8) (n : Nat) :
    (pullDemands sp n).filterMap Demand.written? = [] := by
  induction n generalizing sp with
  | zero => rfl
  | succ n ih =>
    have hread : (Demand.read (stackAddress (sp + 1))).written? = none := rfl
    have hroom : (roomToPull sp).filterMap Demand.written? = [] := by
      unfold roomToPull
      split <;> rfl
    rw [pullDemands, List.filterMap_append, hroom, List.filterMap_cons_none hread, ih]
    rfl

/-- What the operation pushes are all writes that it makes on the stack. -/
theorem written?_stackDemands_of_not_pushes {operation : Operation}
    (h : operation.pushes = false) (c : Cpu) :
    (c.stackDemands operation).filterMap Demand.written? = [] := by
  cases operation with
  | pullAccumulator | pullStatus | returnFromCall | returnFromInterrupt =>
    exact written?_pullDemands _ _
  | pushAccumulator | pushStatus | call | brk => cases h
  | _ => rfl

/-! ## Operands -/

theorem written?_resolveDemands (c : Cpu) (mode : Mode) :
    (c.resolveDemands mode).filterMap Demand.written? = [] := by
  have hoperand : (c.operandReads mode).filterMap Demand.written? = [] := by
    simp [operandReads, List.filterMap_map, Demand.written?, Demand.access?, BusAccess.written?,
      Function.comp_def]
  have hpointer : (c.pointerReads mode).filterMap Demand.written? = [] := by
    unfold pointerReads
    cases c.pointer? mode <;> rfl
  unfold resolveDemands
  rw [List.filterMap_append, hpointer, List.append_nil]
  split
  · rfl
  · exact hoperand

/-- An instruction writes at most one byte that it does not push, and that into its operand. -/
theorem written?_dataDemands (c : Cpu) (operation : Operation) (mode : Mode) :
    ∃ ws, (c.dataDemands operation mode).filterMap Demand.written? = ws ∧ ws.length ≤ 1 ∧
      ∀ w ∈ ws, operation.access ≠ .none ∧ c.effectiveAddress mode = some w.1 := by
  have hread : (c.dataRead mode).filterMap Demand.written? = [] := by
    unfold dataRead
    cases c.effectiveAddress mode <;> rfl
  have hwrite (v : UInt8) : (c.dataWrite mode v).filterMap Demand.written? =
      ((c.effectiveAddress mode).map fun a => (a, v)).toList := by
    unfold dataWrite
    cases c.effectiveAddress mode <;> rfl
  have hone (v : UInt8) : (((c.effectiveAddress mode).map fun a => (a, v)).toList).length ≤ 1 ∧
      ∀ w ∈ ((c.effectiveAddress mode).map fun a => (a, v)).toList,
        c.effectiveAddress mode = some w.1 := by
    cases c.effectiveAddress mode <;> simp
  refine ⟨_, rfl, ?_⟩
  unfold dataDemands
  dsimp only
  cases operation.access with
  | none => exact ⟨Nat.zero_le 1, List.forall_mem_nil _⟩
  | read =>
    rw [hread]
    exact ⟨Nat.zero_le 1, List.forall_mem_nil _⟩
  | write =>
    rw [hwrite]
    exact ⟨(hone _).1, fun w hw => ⟨nofun, (hone _).2 w hw⟩⟩
  | modify =>
    rw [List.filterMap_append, hread, List.nil_append, hwrite]
    exact ⟨(hone _).1, fun w hw => ⟨nofun, (hone _).2 w hw⟩⟩

/-! ## Steps -/

/-- The writes of an interrupt entry that is due. -/
def entryWrites (c : Cpu) : List (UInt16 × UInt8) := c.entryDemands.filterMap Demand.written?

/-- The writes of the instruction at PC. -/
def instructionWrites (c : Cpu) : List (UInt16 × UInt8) := c.nextDemands.filterMap Demand.written?

/-- An entry saves three bytes and writes nothing else. -/
theorem entryWrites_eq (c : Cpu) :
    c.entryWrites = c.interruptDue.elim [] fun _ => pushWrites c.sp c.savedByEntry := by
  unfold entryWrites entryDemands
  cases c.interruptDue with
  | none => rfl
  | some kind =>
    have hvector : (vectorReads kind.vector).filterMap Demand.written? = [] := rfl
    show (pushDemands _ _ ++ vectorReads kind.vector).filterMap Demand.written? = pushWrites _ _
    rw [List.filterMap_append, hvector, List.append_nil, written?_pushDemands]

theorem instructionWrites_of_undocumented (h : Instruction.lookup (c.memory.peek c.pc) = none) :
    c.instructionWrites = [] := by
  unfold instructionWrites nextDemands
  rw [h]
  rfl

/-- An instruction writes to its operand and then to the stack. -/
theorem instructionWrites_of_documented {ins : Instruction}
    (h : Instruction.lookup (c.memory.peek c.pc) = some ins) :
    c.instructionWrites =
      (c.afterOpcode.dataDemands ins.operation ins.mode).filterMap Demand.written? ++
        (c.afterOpcode.stackDemands ins.operation).filterMap Demand.written? := by
  have hfirst : c.instructionWrites =
      (c.afterOpcode.instructionDemands ins).filterMap Demand.written? := by
    unfold instructionWrites nextDemands
    rw [h]
    rfl
  rw [hfirst, instructionDemands_eq _ (Instruction.mem_table_of_lookup h), List.filterMap_append,
    written?_resolveDemands, List.nil_append, List.filterMap_append]

/-- A step makes the writes of an entry that is due and those of its instruction. -/
theorem writes_step (h : c.state = .running) :
    (step.run c).Writes (c.entryWrites ++ c.afterEntry.instructionWrites) := by
  obtain ⟨haccesses, hresult⟩ := ends_step h
  have hdemands : c.entryWrites ++ c.afterEntry.instructionWrites =
      c.stepDemands.filterMap Demand.written? := List.filterMap_append.symm
  rw [hdemands]
  refine ⟨?_, fun o ho => ?_⟩
  · rw [Outcome.writes, haccesses]
    exact Terms.writes_carriedOut _ _
  · rw [Outcome.writes, haccesses]
    exact Terms.writes_carriedOut_of_granted ((step_ok_iff h).1 ⟨o, ho⟩).firstRefused_eq_none

end Cpu

end NesCore
