import NesCore.Proofs.Composed
import NesCore.Proofs.StepErrors

/-!
# Steps that succeed

A step that succeeds has entered the interrupt that was due, found its opcode in the table, and
carried out the operation of that row: `exists_of_step_ok` gives the row, the operand and the flow,
and with them what the step reports and the state it leaves. The flow is `halt` for a `BRK` that
stops the run, and for nothing else (`flow_eq_halt_iff`). A step succeeds exactly if all it demands
is granted (`step_ok_iff`), and then it leaves the effect of its row (`completed`).
-/

namespace NesCore.Cpu

open NesCore.Action

variable {α β : Type} {c : Cpu}

/-! ## Actions that follow their demands -/

theorem firstRefused_eq_none_iff {t : Terms} {ds : List Demand} :
    t.firstRefused ds = none ↔ t.GrantsAll ds := by
  simp [Terms.firstRefused, Terms.GrantsAll]

/-- What succeeds was granted all that it demands. -/
theorem Follows.grantsAll_of_ok {x : Action Cpu Fault α} {ds : List Demand} {Q : α → Cpu → Prop}
    {a : α} (h : Follows x c ds Q) (ha : (x.run c).result = .ok a) : c.terms.GrantsAll ds := by
  obtain ⟨-, hresult⟩ := h
  rw [← firstRefused_eq_none_iff]
  cases hd : c.terms.firstRefused ds with
  | none => rfl
  | some d =>
    rw [hd] at hresult
    have herror : (x.run c).result = .error d.fault := hresult
    rw [ha] at herror
    cases herror

theorem Follows.exists_of_grantsAll {x : Action Cpu Fault α} {ds : List Demand}
    {Q : α → Cpu → Prop} (h : Follows x c ds Q) (hds : c.terms.GrantsAll ds) :
    ∃ a, (x.run c).result = .ok a ∧ Q a (x.run c).state := by
  obtain ⟨-, hresult⟩ := h
  rw [hds.firstRefused_eq_none] at hresult
  obtain ⟨a, ha, -, hq⟩ := hresult
  exact ⟨a, ha, hq⟩

theorem Follows.of_ok {x : Action Cpu Fault α} {ds : List Demand} {Q : α → Cpu → Prop} {a : α}
    (h : Follows x c ds Q) (ha : (x.run c).result = .ok a) : Q a (x.run c).state := by
  obtain ⟨b, hb, hq⟩ := h.exists_of_grantsAll (h.grantsAll_of_ok ha)
  rw [ha] at hb
  cases hb
  exact hq

/-! ## Flows -/

/-- Whatever the action yields, the property holds of it. -/
def Yields (x : Action Cpu Fault α) (P : α → Prop) : Prop :=
  ∀ c a, (x.run c).result = .ok a → P a

namespace Yields

variable {P : α → Prop}

theorem pure {a : α} (h : P a) : Yields (pure a) P := by
  intro c b hb
  cases hb
  exact h

theorem bind {x : Action Cpu Fault β} {f : β → Action Cpu Fault α} (hf : ∀ b, Yields (f b) P) :
    Yields (x >>= f) P := by
  intro c a ha
  obtain ⟨b, -, hb, -⟩ := exists_of_bind_ok ha
  exact hf b _ a hb

end Yields

theorem yields_takeBranch (operand : Operand) : Yields (takeBranch operand) (· ≠ .halt) :=
  .bind fun _ => .bind fun _ => .pure (by decide)

theorem yields_softwareInterrupt (origin : UInt16) :
    Yields (softwareInterrupt origin) (· ≠ .halt) :=
  .bind fun _ => .bind fun _ => .bind fun _ => .bind fun _ => .pure (by decide)

theorem yields_execute {operation : Operation} (h : operation ≠ .brk) (origin : UInt16)
    (operand : Operand) : Yields (execute origin operation operand) (· ≠ .halt) := by
  have hnext : Yields (pure .next : Action Cpu Fault Flow) (· ≠ .halt) := .pure (by decide)
  have hjump : Yields (pure .jump : Action Cpu Fault Flow) (· ≠ .halt) := .pure (by decide)
  unfold execute
  refine .bind fun c => ?_
  cases operation with
  | store | pushAccumulator | pushStatus | pullStatus | stepRegister | setFlag =>
    exact .bind fun _ => hnext
  | transfer source target => cases target <;> exact .bind fun _ => hnext
  | load | pullAccumulator | add | subtract | logic | compare | bitTest =>
    exact .bind fun _ => .bind fun _ => hnext
  | shift | stepOperand => exact .bind fun _ => .bind fun _ => .bind fun _ => hnext
  | branch flag value =>
    dsimp only
    split
    · exact yields_takeBranch operand
    · exact hnext
  | jump | returnFromCall => exact .bind fun _ => .bind fun _ => hjump
  | call | returnFromInterrupt => exact .bind fun _ => .bind fun _ => .bind fun _ => hjump
  | brk => exact absurd rfl h
  | nop => exact hnext

/-- A `BRK` that is set to halts and changes nothing. -/
theorem run_execute_brk_of_halt (h : c.config.brk = .halt) (origin : UInt16) (operand : Operand) :
    (execute origin .brk operand).run c = ⟨[], .ok .halt, c⟩ := by
  unfold execute
  rw [run_look_bind]
  dsimp only [id]
  rw [h]
  rfl

theorem run_execute_brk_of_interrupt (h : c.config.brk = .interrupt) (origin : UInt16)
    (operand : Operand) :
    (execute origin .brk operand).run c = (softwareInterrupt origin).run c := by
  unfold execute
  rw [run_look_bind]
  dsimp only [id]
  rw [h]

/-- A `BRK` stops the run where it is set to, and no other operation does. -/
theorem flow_eq_halt_iff {origin : UInt16} {operation : Operation} {operand : Operand}
    {flow : Flow} (h : ((execute origin operation operand).run c).result = .ok flow) :
    flow = .halt ↔ operation = .brk ∧ c.config.brk = .halt := by
  by_cases hbrk : operation = .brk
  · subst hbrk
    cases hmode : c.config.brk with
    | halt =>
      rw [run_execute_brk_of_halt hmode] at h
      cases h
      exact iff_of_true rfl ⟨rfl, rfl⟩
    | interrupt =>
      rw [run_execute_brk_of_interrupt hmode] at h
      exact iff_of_false (yields_softwareInterrupt origin c flow h) (fun hb => nomatch hb.2)
  · exact iff_of_false (yields_execute hbrk origin operand c flow h) fun hb => hbrk hb.1

/-! ## Successful steps -/

/-- The processor behind the interrupt phase of a step. -/
def serviced (c : Cpu) : Cpu := ((serviceInterrupts c.pc).run c).state

theorem serviced_of_ok {kind : Option Interrupt}
    (h : ((serviceInterrupts c.pc).run c).result = .ok kind) : c.serviced = c.afterEntry :=
  ((follows_serviceInterrupts c.pc).of_ok h).2

/-- The processor that carries out the operation of a step, with PC behind the opcode. -/
def ready (c : Cpu) : Cpu := c.afterEntry.afterOpcode

theorem run_step_of_ok {o : StepOutcome} (h : c.state = .running)
    (ho : (step.run c).result = .ok o) : step.run c = runningStep.run c := by
  rw [run_step_of_running h, result_faultedOnError] at ho
  rw [run_step_of_running h, faultedOnError, ho]

/-- An instruction that succeeds is a row of the table, carried out on its operand. -/
theorem exists_of_executeNext_ok {opcode : UInt8} {flow : Flow}
    (h : ((executeNext c.pc).run c).result = .ok (opcode, flow)) :
    opcode = c.memory.peek c.pc ∧
      ∃ ins operand,
        Instruction.lookup opcode = some ins ∧
        ((resolve ins.mode).run c.afterOpcode).result = .ok operand ∧
        let executed := (execute c.pc ins.operation operand).run c.afterOpcode
        executed.result = .ok flow ∧
        let left := ((proceed c.pc ins flow).run executed.state).state
        ((executeNext c.pc).run c).state =
          { left with cycles := left.cycles + instructionCycles ins operand } := by
  unfold executeNext at h ⊢
  obtain ⟨fetched, hfetch, hrest, hstate⟩ := exists_of_bind_ok h
  obtain ⟨rfl, hs⟩ := follows_fetch.of_ok hfetch
  rw [hs] at hrest hstate
  rw [hstate]
  cases hl : Instruction.lookup (c.memory.peek c.pc) with
  | none =>
    rw [hl] at hrest
    cases hrest
  | some ins =>
    simp only [hl] at hrest ⊢
    obtain ⟨operand, hresolve, hrest, hstate⟩ := exists_of_bind_ok hrest
    obtain ⟨-, hs⟩ := (follows_resolve ins.mode).of_ok hresolve
    rw [hs] at hrest hstate
    rw [hstate]
    obtain ⟨flow', hexecute, hrest, hstate⟩ := exists_of_bind_ok hrest
    rw [hstate]
    obtain ⟨_, -, hrest, hstate⟩ := exists_of_bind_ok hrest
    rw [hstate]
    obtain ⟨_, -, hrest, hstate⟩ := exists_of_bind_ok hrest
    cases hrest
    exact ⟨rfl, ins, operand, hl, hresolve, hexecute, hstate⟩

/-- A step in two phases: an interrupt that is due, then one instruction. -/
theorem run_runningStep (c : Cpu) :
    runningStep.run c = (do
      let interrupt ← (serviceInterrupts c.pc).mapError (CpuError.mk c.pc)
      let origin ← look fun s => s.pc
      let (opcode, flow) ← (executeNext origin).mapError (CpuError.mk origin)
      let total ← look fun s => s.cycles
      return {
        pc := origin
        opcode := opcode
        cycles := total - c.cycles
        halted := flow == .halt
        interrupt := interrupt } : Action Cpu CpuError StepOutcome).run c := rfl

/-- A step fails in its first phase, or in its second one, or it succeeds. -/
theorem runningStep_cases (c : Cpu) :
    (∃ events f s, (serviceInterrupts c.pc).run c = ⟨events, .error f, s⟩ ∧
      runningStep.run c = ⟨events, .error ⟨c.pc, f⟩, s⟩) ∨
    ∃ events kind s, (serviceInterrupts c.pc).run c = ⟨events, .ok kind, s⟩ ∧
      ((∃ events' f t, (executeNext s.pc).run s = ⟨events', .error f, t⟩ ∧
        runningStep.run c = ⟨events ++ events', .error ⟨s.pc, f⟩, t⟩) ∨
      (∃ events' opcode flow t, (executeNext s.pc).run s = ⟨events', .ok (opcode, flow), t⟩ ∧
        runningStep.run c = ⟨events ++ events',
          .ok ⟨s.pc, opcode, t.cycles - c.cycles, flow == .halt, kind⟩, t⟩)) := by
  rcases hservice : (serviceInterrupts c.pc).run c with ⟨events, f | kind, s⟩
  · refine .inl ⟨events, f, s, rfl, ?_⟩
    rw [run_runningStep]
    exact run_bind_error (by rw [run_mapError, hservice]; rfl) _
  refine .inr ⟨events, kind, s, rfl, ?_⟩
  rw [run_runningStep, run_bind_ok (by rw [run_mapError, hservice]; rfl), run_look_bind]
  rcases hexecute : (executeNext s.pc).run s with ⟨events', f | ⟨opcode, flow⟩, t⟩
  · refine .inl ⟨events', f, t, rfl, ?_⟩
    rw [run_bind_error (by rw [run_mapError, hexecute]; rfl)]
  · refine .inr ⟨events', opcode, flow, t, rfl, ?_⟩
    rw [run_bind_ok (by rw [run_mapError, hexecute]; rfl), run_look_bind, run_pure,
      List.append_nil]

/-- A step that succeeds executes the row of its opcode. -/
theorem exists_of_step_ok {o : StepOutcome} (h : c.state = .running)
    (ho : (step.run c).result = .ok o) :
    ∃ ins operand flow,
      Instruction.lookup c.fetchedOpcode = some ins ∧
      ((resolve ins.mode).run c.ready).result = .ok operand ∧
      let executed := (execute c.fetchAddress ins.operation operand).run c.ready
      executed.result = .ok flow ∧
      let left := ((proceed c.fetchAddress ins flow).run executed.state).state
      (step.run c).state = { left with cycles := left.cycles + instructionCycles ins operand } ∧
      o = {
        pc := c.fetchAddress
        opcode := c.fetchedOpcode
        cycles := (step.run c).state.cycles - c.cycles
        halted := flow == .halt
        interrupt := c.interruptDue } := by
  have hrun := (run_step_of_ok h ho).trans (run_runningStep c)
  rw [hrun] at ho ⊢
  obtain ⟨interrupt, hentry, hrest, hstate⟩ := exists_of_bind_ok ho
  obtain ⟨rfl, hs⟩ :=
    (follows_serviceInterrupts c.pc).of_ok (result_mapError_eq_ok_iff.1 hentry)
  rw [run_mapError, hs, run_look_bind] at hrest hstate
  obtain ⟨⟨opcode, flow⟩, hnext, hrest, hstate'⟩ := exists_of_bind_ok hrest
  obtain ⟨rfl, ins, operand, hl, hresolve, hexecute, hleft⟩ :=
    exists_of_executeNext_ok (result_mapError_eq_ok_iff.1 hnext)
  rw [hstate, hstate', run_mapError, hleft]
  rw [run_look_bind, run_mapError, hleft] at hrest
  cases hrest
  simp only [fetchedOpcode, ready, ← pc_afterEntry]
  exact ⟨ins, operand, flow, hl, hresolve, hexecute, rfl, rfl⟩

/-! ## What a successful step leaves -/

theorem stepError?_eq_none_iff : c.stepError? = none ↔ c.terms.GrantsAll c.stepDemands := by
  unfold stepError? stepDemands
  rw [Option.or_eq_none_iff, Option.map_eq_none_iff, Option.map_eq_none_iff,
    ← firstRefused_eq_none_iff, Terms.firstRefused_append, Option.or_eq_none_iff]

/-- A step succeeds if and only if it is granted all that it demands. -/
theorem step_ok_iff (h : c.state = .running) :
    (∃ o, (step.run c).result = .ok o) ↔ c.terms.GrantsAll c.stepDemands := by
  rw [← stepError?_eq_none_iff]
  cases he : c.stepError? with
  | none =>
    have hresult := (trace_of_step h).2
    rw [he] at hresult
    exact iff_of_true hresult rfl
  | some e =>
    have herror := (result_step_eq_error_iff h).2 he
    refine iff_of_false (fun ⟨o, ho⟩ => ?_) nofun
    rw [ho] at herror
    cases herror

/-- The entry of a step that succeeds has succeeded. -/
theorem serviced_of_step_ok {o : StepOutcome} (h : c.state = .running)
    (ho : (step.run c).result = .ok o) : c.serviced = c.afterEntry := by
  have hgranted := (step_ok_iff h).1 ⟨o, ho⟩
  obtain ⟨kind, hkind, -⟩ := (follows_serviceInterrupts c.pc).exists_of_grantsAll
    fun d hd => hgranted d (List.mem_append_left _ hd)
  exact serviced_of_ok hkind

/-- The processor that a step leaves if it carries out a row of the table. -/
def completed (c : Cpu) (ins : Instruction) : Cpu :=
  let flow := c.ready.flow ins.operation
  let left := ((proceed c.fetchAddress ins flow).run (c.ready.effect ins.operation ins.mode)).state
  { left with cycles := left.cycles + instructionCycles ins (c.ready.operand ins.mode) }

section Completed

variable {ins : Instruction} {s : Cpu} (hs : c.ready.effect ins.operation ins.mode = s)

include hs

theorem completed_of_jump (hflow : c.ready.flow ins.operation = .jump) :
    c.completed ins =
      { s with cycles := s.cycles + instructionCycles ins (c.ready.operand ins.mode) } := by
  unfold completed
  rw [hflow, hs]
  rfl

theorem completed_of_next (hflow : c.ready.flow ins.operation = .next) :
    c.completed ins =
      { s with
        pc := s.pc + UInt16.ofNat ins.mode.operandLength
        cycles := s.cycles + instructionCycles ins (c.ready.operand ins.mode) } := by
  unfold completed
  rw [hflow, hs]
  rfl

end Completed

/-- Apart from PC, the run state and the cycles of the row, a completed row is its effect. -/
theorem exists_completed (c : Cpu) (ins : Instruction) :
    ∃ pc state, c.completed ins =
      { c.ready.effect ins.operation ins.mode with
        pc := pc
        state := state
        cycles := (c.ready.effect ins.operation ins.mode).cycles +
          instructionCycles ins (c.ready.operand ins.mode) } := by
  unfold completed
  cases c.ready.flow ins.operation <;> exact ⟨_, _, rfl⟩

/-- A step that succeeds leaves the effect of its row, with PC where the flow leads. -/
theorem exists_completed_of_step_ok {o : StepOutcome} (h : c.state = .running)
    (ho : (step.run c).result = .ok o) :
    ∃ ins, Instruction.lookup c.fetchedOpcode = some ins ∧
      (step.run c).state = c.completed ins ∧
      o = {
        pc := c.fetchAddress
        opcode := c.fetchedOpcode
        cycles := (c.completed ins).cycles - c.cycles
        halted := c.ready.flow ins.operation == .halt
        interrupt := c.interruptDue } := by
  obtain ⟨ins, operand, flow, hl, hresolve, hexecute, hs, rfl⟩ := exists_of_step_ok h ho
  obtain ⟨rfl, -⟩ := (follows_resolve ins.mode).of_ok hresolve
  have hpc : c.ready.pc = c.fetchAddress + 1 := congrArg (· + 1) (pc_afterEntry c)
  have hadmits := Instruction.admits (Instruction.mem_table_of_lookup hl)
  obtain ⟨rfl, heffect⟩ := (follows_execute ins.operation hadmits hpc).of_ok hexecute
  rw [heffect] at hs
  have hstate : (step.run c).state = c.completed ins := hs
  exact ⟨ins, hl, hstate, by rw [hstate]⟩

/-- A step whose row is known succeeds if the entry and the instruction are granted all they
demand. -/
theorem step_of_row {ins : Instruction} (h : c.state = .running) (hins : ins ∈ Instruction.table)
    (hopcode : c.afterEntry.memory.read c.fetchAddress = .ok ins.opcode)
    (hentry : c.terms.GrantsAll c.entryDemands)
    (hrest : c.terms.GrantsAll (c.ready.instructionDemands ins)) :
    (step.run c).state = c.completed ins ∧
      (step.run c).result = .ok {
        pc := c.fetchAddress
        opcode := ins.opcode
        cycles := (c.completed ins).cycles - c.cycles
        halted := c.ready.flow ins.operation == .halt
        interrupt := c.interruptDue } := by
  obtain ⟨hgranted, hpeek⟩ := Memory.not_refuses_of_read_eq_ok hopcode
  rw [policy_afterEntry] at hgranted
  have hl : Instruction.lookup c.fetchedOpcode = some ins := by
    rw [fetchedOpcode, hpeek]
    exact Instruction.lookup_opcode hins
  have hnext : c.terms.GrantsAll c.afterEntry.nextDemands := by
    have hrow : Instruction.lookup (c.afterEntry.memory.peek c.afterEntry.pc) = some ins := by
      rw [pc_afterEntry]
      exact hl
    have hdocumented : c.terms.Grants (.documented (c.afterEntry.memory.peek c.afterEntry.pc)) := by
      simp [Terms.Grants, hrow]
    unfold nextDemands
    rw [hrow]
    refine .cons ?_ (.cons hdocumented hrest)
    rw [pc_afterEntry]
    exact hgranted
  obtain ⟨o, ho⟩ := (step_ok_iff h).2 (hentry.append hnext)
  obtain ⟨row, hrow, hs, rfl⟩ := exists_completed_of_step_ok h ho
  rw [hl] at hrow
  cases hrow
  rw [hs, ho, ← hpeek]
  exact ⟨rfl, rfl⟩

/-! ## Instructions that read their operand -/

/-- An operation that reads its operand leaves the stack alone and goes on in sequence. -/
theorem stackDemands_of_reads {operation : Operation}
    (h : operation.access = .read ∨ operation.access = .modify) (c : Cpu) :
    c.stackDemands operation = [] ∧ c.flow operation = .next := by
  cases operation with
  | load | add | subtract | logic | compare | bitTest | shift | stepOperand => exact ⟨rfl, rfl⟩
  | _ => rcases h with h | h <;> cases h

theorem mode_ne_implied_of_reads {ins : Instruction} (hins : ins ∈ Instruction.table)
    (hreads : ins.operation.access = .read ∨ ins.operation.access = .modify) :
    ins.mode ≠ .implied := by
  refine (Instruction.admits hins).storage fun hnone => ?_
  rw [hnone] at hreads
  rcases hreads with h | h <;> cases h

/-- An operand that can be read can be written, so that an instruction that reads its operand is
granted all it demands as soon as the operand has been found and read. -/
theorem grantsAll_of_operand {ins : Instruction} {operand : Operand} {v : UInt8}
    (hins : ins ∈ Instruction.table)
    (hreads : ins.operation.access = .read ∨ ins.operation.access = .modify)
    (hresolve : ((resolve ins.mode).run c).result = .ok operand)
    (hvalue : ((readOperand operand).run c).result = .ok v) :
    c.operandValue ins.mode = v ∧ c.terms.GrantsAll (c.instructionDemands ins) := by
  have hstorage := mode_ne_implied_of_reads hins hreads
  obtain ⟨rfl, -⟩ := (follows_resolve ins.mode).of_ok hresolve
  have hfound := @follows_readOperand c ins.mode (c.crossesPage ins.mode) hstorage
  have hread : c.terms.GrantsAll (c.dataRead ins.mode) := hfound.grantsAll_of_ok hvalue
  have hwrite (w : UInt8) : c.terms.GrantsAll (c.dataWrite ins.mode w) := by
    unfold dataRead at hread
    unfold dataWrite
    cases he : c.effectiveAddress ins.mode with
    | none => exact .nil
    | some e =>
      rw [he] at hread
      exact .cons (hread (.read e) List.mem_cons_self) .nil
  have hdata : c.terms.GrantsAll (c.dataDemands ins.operation ins.mode) := by
    unfold dataDemands
    rcases hreads with h | h <;> rw [h]
    · exact hread
    · exact hread.append (hwrite _)
  refine ⟨(hfound.of_ok hvalue).1.symm, ?_⟩
  rw [instructionDemands_eq c hins, (stackDemands_of_reads hreads c).1, List.append_nil]
  exact ((follows_resolve ins.mode).grantsAll_of_ok hresolve).append hdata

/-- The converse of `grantsAll_of_operand`: a step that succeeds in such an instruction has found
and read its operand. -/
theorem operand_of_step_ok {ins : Instruction} {o : StepOutcome} (h : c.state = .running)
    (ho : (step.run c).result = .ok o) (hl : Instruction.lookup o.opcode = some ins)
    (hreads : ins.operation.access = .read ∨ ins.operation.access = .modify) :
    c.afterEntry.memory.read c.fetchAddress = .ok ins.opcode ∧
      ∃ operand, ((resolve ins.mode).run c.ready).result = .ok operand ∧
        ((readOperand operand).run c.ready).result = .ok (c.ready.operandValue ins.mode) := by
  have hins := Instruction.mem_table_of_lookup hl
  have hfetch : ¬ c.memory.policy.Refuses c.fetchAddress := by
    have hfirst : Demand.read c.afterEntry.pc ∈ c.stepDemands :=
      List.mem_append_right _ List.mem_cons_self
    rw [← pc_afterEntry]
    exact (step_ok_iff h).1 ⟨o, ho⟩ _ hfirst
  obtain ⟨row, operand, flow, hrow, hresolve, hexecute, -, rfl⟩ := exists_of_step_ok h ho
  obtain rfl : ins = row := Option.some.inj (hl.symm.trans hrow)
  refine ⟨?_, operand, hresolve, ?_⟩
  · rw [← policy_afterEntry] at hfetch
    rw [Memory.read_of_not_refuses hfetch, Instruction.opcode_of_lookup hl]
    rfl
  · obtain ⟨rfl, -⟩ := (follows_resolve ins.mode).of_ok hresolve
    have hpc : c.ready.pc = c.fetchAddress + 1 := congrArg (· + 1) (pc_afterEntry c)
    have hexecuted := (follows_execute ins.operation (Instruction.admits hins) hpc).grantsAll_of_ok
      hexecute
    have hread : c.ready.terms.GrantsAll (c.ready.dataRead ins.mode) := fun d hd => by
      refine hexecuted d (List.mem_append_left _ ?_)
      unfold dataDemands
      rcases hreads with h | h <;> simp [h, hd]
    obtain ⟨v, hv, rfl, -⟩ := (follows_readOperand (c.ready.crossesPage ins.mode)
      (mode_ne_implied_of_reads hins hreads)).exists_of_grantsAll hread
    exact hv

/-! ## Steps without an interrupt -/

/-- The processor runs, and no interrupt waits. -/
structure Undisturbed (c : Cpu) : Prop where
  running : c.state = .running
  nmiPending : c.nmiPending = false
  irqPending : c.irqPending = false

theorem Undisturbed.interruptDue (h : c.Undisturbed) : c.interruptDue = none := by
  unfold Cpu.interruptDue
  rw [h.nmiPending, h.irqPending]
  rfl

theorem afterEntry_of_no_request (hnmi : c.nmiPending = false) (hirq : c.irqPending = false) :
    c.interruptDue = none ∧ c.afterEntry = c := by
  have hdue : c.interruptDue = none := by simp [interruptDue, hnmi, hirq]
  refine ⟨hdue, ?_⟩
  rw [afterEntry, hdue]
  have hc : { c with irqPending := false } = c := by rw [← hirq]
  show c.acknowledged = c
  rw [acknowledged, if_neg (by simp [hnmi]), hc]

/-- The processor runs, no interrupt waits, and the instruction at PC is that of a row. -/
structure Executes (c : Cpu) (ins : Instruction) : Prop where
  running : c.state = .running
  noNmi : c.nmiPending = false
  noIrq : c.irqPending = false
  opcode : c.memory.read c.pc = .ok ins.opcode

namespace Executes

variable {ins : Instruction} (h : c.Executes ins)

include h

theorem ready_eq : c.ready = c.afterOpcode :=
  congrArg afterOpcode (afterEntry_of_no_request h.noNmi h.noIrq).2

theorem fetchAddress_eq : c.fetchAddress = c.pc := by
  rw [← pc_afterEntry, (afterEntry_of_no_request h.noNmi h.noIrq).2]

theorem lookup_peek (hins : ins ∈ Instruction.table) :
    Instruction.lookup (c.memory.peek c.pc) = some ins := by
  rw [(Memory.not_refuses_of_read_eq_ok h.opcode).2]
  exact Instruction.lookup_opcode hins

/-- The step succeeds if the instruction is granted all it demands. -/
theorem step_eq (hins : ins ∈ Instruction.table)
    (hdemands : c.terms.GrantsAll (c.afterOpcode.instructionDemands ins)) :
    (step.run c).state = c.completed ins ∧
      (step.run c).result = .ok {
        pc := c.pc
        opcode := ins.opcode
        cycles := (c.completed ins).cycles - c.cycles
        halted := c.afterOpcode.flow ins.operation == .halt
        interrupt := none } := by
  obtain ⟨hdue, hsame⟩ := afterEntry_of_no_request h.noNmi h.noIrq
  have hopcode : c.afterEntry.memory.read c.fetchAddress = .ok ins.opcode := by
    rw [hsame, h.fetchAddress_eq]
    exact h.opcode
  have hentry : c.terms.GrantsAll c.entryDemands := by
    rw [entryDemands, hdue]
    exact .nil
  rw [← h.ready_eq] at hdemands
  have hstep := step_of_row h.running hins hopcode hentry hdemands
  rw [h.fetchAddress_eq, h.ready_eq, hdue] at hstep
  exact hstep

end Executes

/-- The converse of `Executes.step_eq`: what succeeds is a row, and was granted all it demands. -/
theorem exists_executes_of_step_ok {o : StepOutcome} (h : c.Undisturbed)
    (ho : (step.run c).result = .ok o) :
    ∃ ins ∈ Instruction.table, c.Executes ins ∧
      c.terms.GrantsAll (c.afterOpcode.instructionDemands ins) := by
  obtain ⟨-, hsame⟩ := afterEntry_of_no_request h.nmiPending h.irqPending
  have hnext : c.terms.GrantsAll c.nextDemands := fun d hd =>
    (step_ok_iff h.running).1 ⟨o, ho⟩ d (List.mem_append_right _ (by rwa [hsame]))
  have hfetch : ¬ c.memory.policy.Refuses c.pc := hnext _ List.mem_cons_self
  have hdocumented : (Instruction.lookup (c.memory.peek c.pc)).isSome :=
    hnext (.documented _) (List.mem_cons_of_mem _ List.mem_cons_self)
  obtain ⟨ins, hl⟩ := Option.isSome_iff_exists.1 hdocumented
  refine ⟨ins, Instruction.mem_table_of_lookup hl,
    ⟨h.running, h.nmiPending, h.irqPending, ?_⟩, fun d hd => hnext d ?_⟩
  · rw [Memory.read_of_not_refuses hfetch, Instruction.opcode_of_lookup hl]
  · rw [nextDemands, hl]
    exact List.mem_cons_of_mem _ (List.mem_cons_of_mem _ hd)

end NesCore.Cpu
