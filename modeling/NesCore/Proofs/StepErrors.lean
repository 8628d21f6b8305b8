import NesCore.Proofs.Course.Step

/-!
# The errors of a step

A step fails on a refused demand only, so each kind of error has one cause: a refused access needs
the fault policy and an address it rules, a stack error needs the fatal check, and a processor that
is not running needs a reset. Where neither policy nor check can fail, the opcode alone decides
(`stepError?_of_lenient`).

Main statement: `errors_of_step`.
-/

namespace NesCore

/-! ## Causes -/

/-- A fault has its cause in what decides on the demands. -/
def Fault.HasCause (t : Terms) : Fault → Prop
  | .illegalOpcode opcode => Instruction.lookup opcode = none
  | .bus (.unmapped a) => t.policy = .fault ∧ IsIo a
  | .stack .. => t.stackCheck = .fatal
  | .noStorage _ | .notRunning => False

theorem Demand.hasCause_of_not_grants {t : Terms} {d : Demand} (h : ¬ t.Grants d) :
    d.fault.HasCause t := by
  cases d with
  | access x => exact not_not.1 h
  | stackRoom wrap sp => exact not_not.1 h
  | documented opcode => exact Option.not_isSome_iff_eq_none.1 h

/-- The documented opcodes are those of the table. -/
theorem Instruction.isSome_lookup_iff {opcode : UInt8} :
    (lookup opcode).isSome ↔ opcode ∈ table.map Instruction.opcode := by
  rw [Option.isSome_iff_exists, List.mem_map]
  exact exists_congr fun ins => lookup_eq_some_iff

namespace Cpu

variable {c : Cpu} {e : CpuError}

theorem hasCause_of_stepError (h : c.stepError? = some e) : e.fault.HasCause c.terms := by
  unfold stepError? at h
  rw [Option.or_eq_some_iff] at h
  obtain h | ⟨-, h⟩ := h
  · obtain ⟨d, hd, rfl⟩ := Option.map_eq_some_iff.1 h
    exact Demand.hasCause_of_not_grants (Terms.not_grants_of_firstRefused hd)
  · obtain ⟨d, hd, rfl⟩ := Option.map_eq_some_iff.1 h
    exact Demand.hasCause_of_not_grants (Terms.not_grants_of_firstRefused hd)

theorem result_step_eq_error_iff (h : c.state = .running) :
    (step.run c).result = .error e ↔ c.stepError? = some e := by
  obtain ⟨-, hresult⟩ := ends_step h
  cases he : c.stepError? with
  | some e' =>
    rw [he] at hresult
    rw [hresult]
    simp
  | none =>
    rw [he] at hresult
    obtain ⟨o, hok, -⟩ := hresult
    rw [hok]
    simp

/-- The errors of a step, in any state. -/
theorem cause_of_step_error (h : (step.run c).result = .error e) :
    (c.state = .running ∧ e.fault.HasCause c.terms) ∨
      ((c.state = .resetPending ∨ c.state = .faulted) ∧ e = ⟨c.pc, .notRunning⟩) := by
  cases hs : c.state with
  | running => exact .inl ⟨rfl, hasCause_of_stepError ((result_step_eq_error_iff hs).1 h)⟩
  | halted =>
    rw [run_step_of_halted hs] at h
    cases h
  | resetPending =>
    rw [run_step_of_not_ready (.inl hs)] at h
    cases h
    exact .inr ⟨.inl rfl, rfl⟩
  | faulted =>
    rw [run_step_of_not_ready (.inr hs)] at h
    cases h
    exact .inr ⟨.inr rfl, rfl⟩

/-! ## Where only the opcode can be refused -/

variable {t : Terms}

/-- Outside the policy's range every access is granted. -/
theorem grants_of_not_isIo {x : BusAccess} (h : ¬ IsIo x.address) : t.Grants (.access x) :=
  t.policy.not_refuses_of_not_isIo h

/-- The vectors lie in the ROM, which no policy rules. -/
theorem grantsAll_vectorReads {vector : UInt16} (hlow : romStart ≤ vector)
    (hhigh : romStart ≤ vector + 1) : t.GrantsAll (vectorReads vector) :=
  .cons (grants_of_not_isIo (IoPolicy.not_isIo_of_rom hlow))
    (.cons (grants_of_not_isIo (IoPolicy.not_isIo_of_rom hhigh)) .nil)

section Lenient

variable (hpolicy : t.policy ≠ .fault) (hcheck : t.stackCheck ≠ .fatal)

include hpolicy in
theorem grants_access (x : BusAccess) : t.Grants (.access x) := fun hr => hpolicy hr.1

include hpolicy hcheck

omit hpolicy in
theorem grantsAll_pushDemands (sp : UInt8) (bytes : List UInt8) :
    t.GrantsAll (pushDemands sp bytes) := by
  induction bytes generalizing sp with
  | nil => exact .nil
  | cons v rest ih =>
    have hroom : t.GrantsAll (roomToPush sp) := .ite (.cons hcheck .nil) .nil
    exact hroom.append (.cons (grants_of_not_isIo (not_isIo_stackAddress sp)) (ih _))

omit hpolicy in
theorem grantsAll_pullDemands (sp : UInt8) (n : Nat) : t.GrantsAll (pullDemands sp n) := by
  induction n generalizing sp with
  | zero => exact .nil
  | succ n ih =>
    have hroom : t.GrantsAll (roomToPull sp) := .ite (.cons hcheck .nil) .nil
    exact hroom.append (.cons (grants_of_not_isIo (not_isIo_stackAddress (sp + 1))) (ih _))

omit hpolicy in
/-- The entry of an interrupt works on the stack and the vectors, which no policy rules. -/
theorem grantsAll_entryDemands (c : Cpu) : t.GrantsAll c.entryDemands := by
  refine .elim _ fun kind => .append (grantsAll_pushDemands hcheck _ _) ?_
  cases kind <;> exact grantsAll_vectorReads (by decide) (by decide)

omit hcheck in
theorem grantsAll_operandReads (c : Cpu) (mode : Mode) : t.GrantsAll (c.operandReads mode) := by
  intro d hd
  obtain ⟨i, -, rfl⟩ := List.mem_map.1 hd
  exact grants_access hpolicy _

omit hcheck in
theorem grantsAll_pointerReads (c : Cpu) (mode : Mode) : t.GrantsAll (c.pointerReads mode) :=
  .elim _ fun _ => .cons (grants_access hpolicy _) (.cons (grants_access hpolicy _) .nil)

omit hcheck in
theorem grantsAll_dataDemands (c : Cpu) (operation : Operation) (mode : Mode) :
    t.GrantsAll (c.dataDemands operation mode) := by
  have hread : t.GrantsAll (c.dataRead mode) :=
    .elim _ fun _ => .cons (grants_access hpolicy _) .nil
  have hwrite (v : UInt8) : t.GrantsAll (c.dataWrite mode v) :=
    .elim _ fun _ => .cons (grants_access hpolicy _) .nil
  unfold dataDemands
  cases operation.access with
  | none => exact .nil
  | read => exact hread
  | write => exact hwrite _
  | modify => exact hread.append (hwrite _)

omit hpolicy in
theorem grantsAll_stackDemands (c : Cpu) (operation : Operation) :
    t.GrantsAll (c.stackDemands operation) := by
  have hpush := grantsAll_pushDemands hcheck
  have hpull := grantsAll_pullDemands hcheck
  unfold stackDemands
  cases operation with
  | pushAccumulator | pushStatus | call => exact hpush _ _
  | pullAccumulator | pullStatus | returnFromCall | returnFromInterrupt => exact hpull _ _
  | brk =>
    dsimp only
    cases c.config.brk with
    | halt => exact .nil
    | interrupt => exact (hpush _ _).append (grantsAll_vectorReads (by decide) (by decide))
  | _ => exact .nil

theorem grantsAll_instructionDemands (c : Cpu) (ins : Instruction) :
    t.GrantsAll (c.instructionDemands ins) := by
  have hoperand := (grantsAll_operandReads hpolicy c ins.mode).append
    (grantsAll_pointerReads hpolicy c ins.mode)
  have hdata := grantsAll_dataDemands hpolicy c ins.operation ins.mode
  exact (hoperand.append (.ite .nil hdata)).append (grantsAll_stackDemands hcheck c _)

/-- The opcode is the only demand that can be refused. -/
theorem firstRefused_nextDemands (c : Cpu) :
    t.firstRefused c.nextDemands =
      if (Instruction.lookup (c.memory.peek c.pc)).isSome then none
      else some (.documented (c.memory.peek c.pc)) := by
  unfold nextDemands
  rw [Terms.firstRefused_cons_of_grants (grants_access hpolicy _)]
  cases hl : Instruction.lookup (c.memory.peek c.pc) with
  | none =>
    have hd : ¬ t.Grants (.documented (c.memory.peek c.pc)) := by simp [Terms.Grants, hl]
    exact Terms.firstRefused_cons_of_not_grants hd _
  | some ins =>
    have hd : t.Grants (.documented (c.memory.peek c.pc)) := by simp [Terms.Grants, hl]
    rw [Terms.firstRefused_cons_of_grants hd]
    exact (grantsAll_instructionDemands hpolicy hcheck _ ins).firstRefused_eq_none

end Lenient

/-- The opcode of a step, which the entry of an interrupt may have just pushed. -/
def fetchedOpcode (c : Cpu) : UInt8 := c.afterEntry.memory.peek c.fetchAddress

theorem stepError?_of_lenient (hpolicy : c.memory.policy ≠ .fault)
    (hcheck : c.config.stackCheck ≠ .fatal) :
    c.stepError? =
      if (Instruction.lookup c.fetchedOpcode).isSome then none
      else some ⟨c.fetchAddress, .illegalOpcode c.fetchedOpcode⟩ := by
  have hentry : c.terms.firstRefused c.entryDemands = none :=
    (grantsAll_entryDemands hcheck c).firstRefused_eq_none
  have hnext := firstRefused_nextDemands (t := c.terms) hpolicy hcheck c.afterEntry
  unfold stepError? fetchedOpcode
  rw [hentry, hnext, pc_afterEntry]
  split <;> rfl

/-- **Every error of a step has its cause.** No instruction lacks a place to read or write; the bus
fails only under the fault policy and in its range, the stack only under the fatal check; and the
processor reports that it is not running exactly if a reset is due. If neither policy nor check
can fail, a running processor fails exactly on an undocumented opcode. -/
theorem errors_of_step (c : Cpu) :
    (∀ pc mode, (step.run c).result ≠ .error ⟨pc, .noStorage mode⟩) ∧
    (∀ pc a, (step.run c).result = .error ⟨pc, .bus (.unmapped a)⟩ →
      c.memory.policy = .fault ∧ 0x2000 ≤ a ∧ a ≤ 0x401F) ∧
    (∀ pc wrap sp, (step.run c).result = .error ⟨pc, .stack wrap sp⟩ →
      c.config.stackCheck = .fatal) ∧
    ((∃ pc, (step.run c).result = .error ⟨pc, .notRunning⟩) ↔
      c.state = .resetPending ∨ c.state = .faulted) ∧
    (c.state = .running → c.memory.policy ≠ .fault → c.config.stackCheck ≠ .fatal →
      ∃ opcode, c.afterEntry.memory.read c.fetchAddress = .ok opcode ∧
        ∀ e, (step.run c).result = .error e ↔
          opcode ∉ Instruction.table.map Instruction.opcode ∧
            e = ⟨c.fetchAddress, .illegalOpcode opcode⟩) := by
  refine ⟨fun pc mode h => ?storage, fun pc a h => ?bus, fun pc wrap sp h => ?stack,
    ⟨fun ⟨pc, h⟩ => ?reset, fun h => ?notRunning⟩, fun hrun hpolicy hcheck => ?opcode⟩
  case storage =>
    obtain ⟨-, hcause⟩ | ⟨-, he⟩ := cause_of_step_error h
    · exact hcause
    · cases he
  case bus =>
    obtain ⟨-, hcause⟩ | ⟨-, he⟩ := cause_of_step_error h
    · exact hcause
    · cases he
  case stack =>
    obtain ⟨-, hcause⟩ | ⟨-, he⟩ := cause_of_step_error h
    · exact hcause
    · cases he
  case reset =>
    obtain ⟨-, hcause⟩ | ⟨hs, -⟩ := cause_of_step_error h
    · exact hcause.elim
    · exact hs
  case notRunning =>
    rw [run_step_of_not_ready h]
    exact ⟨c.pc, rfl⟩
  case opcode =>
    have hread : c.afterEntry.memory.read c.fetchAddress = .ok c.fetchedOpcode := by
      refine Memory.read_of_not_refuses (IoPolicy.not_refuses_of_ne_fault ?_ _)
      rwa [policy_afterEntry]
    refine ⟨c.fetchedOpcode, hread, fun e => ?_⟩
    rw [result_step_eq_error_iff hrun, stepError?_of_lenient hpolicy hcheck,
      ← Instruction.isSome_lookup_iff]
    by_cases hl : (Instruction.lookup c.fetchedOpcode).isSome
    · simp [hl]
    · simp [hl, eq_comm]

/-- The entry of an NMI may push the opcode that its handler starts with. -/
example :
    let memory := ((Memory.blank .flat).setCell 0xFFFA 0xFD).setCell 0xFFFB 0x01
    let c := { ofMemory memory {} with state := .running, nmiPending := true, pc := 0x0234 }
    (step.run c).result = .error ⟨0x01FD, .illegalOpcode 0x02⟩ := by
  decide +kernel

end Cpu

end NesCore
