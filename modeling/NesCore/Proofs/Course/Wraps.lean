import NesCore.Proofs.Course.Success

/-!
# Wraps of the stack pointer

A push at `$00` and a pull at `$FF` wrap the stack pointer; among the demands of a step they are
those for room on the stack. `wraps` lists the wraps of a step that nothing stops, and
`wrappings_step` says that a step under the warning check reports exactly these, one by one and in
order, and that under another check it reports none.
-/

namespace NesCore

/-- The wrap that an event reports. -/
def Event.wrapping? (e : Event) : Option Wrapping := e.notice?.bind Notice.wrapping?

/-- The wraps that an outcome reports, in order. -/
def Outcome.wrappings {σ ε α : Type} (o : Outcome σ ε α) : List Wrapping :=
  o.events.filterMap Event.wrapping?

/-- The wrap of a push or pull that the instruction at `origin` demands room for. -/
def Demand.wrapping? (origin : UInt16) : Demand → Option Wrapping
  | stackRoom wrap sp => some ⟨origin, wrap, sp⟩
  | access _ | documented _ => none

/-! ## Wraps among demands -/

namespace Terms

/-- The terms on which no wrap is refused. -/
def lenient (t : Terms) : Terms := { t with stackCheck := .off }

/-- The terms on which a wrap is refused and no access is. -/
def strict : Terms := ⟨.flat, .fatal⟩

/-- The wraps that come before the first refused demand. -/
def wrappings (t : Terms) (origin : UInt16) : List Demand → List Wrapping
  | [] => []
  | d :: rest =>
    if t.Grants d then (d.wrapping? origin).toList ++ t.wrappings origin rest else []

/-- The wraps that are reported. -/
def reported (t : Terms) (origin : UInt16) (ds : List Demand) : List Wrapping :=
  if t.stackCheck = .warn then t.wrappings origin ds else []

variable {t : Terms} {d : Demand} {ds : List Demand} {origin : UInt16}

theorem wrappings_cons_of_grants (h : t.Grants d) :
    t.wrappings origin (d :: ds) = (d.wrapping? origin).toList ++ t.wrappings origin ds := if_pos h

theorem wrappings_cons_of_not_grants (h : ¬ t.Grants d) : t.wrappings origin (d :: ds) = [] :=
  if_neg h

theorem wrappings_append (ds es : List Demand) :
    t.wrappings origin (ds ++ es) =
      t.wrappings origin ds ++
        if t.firstRefused ds = none then t.wrappings origin es else [] := by
  induction ds with
  | nil => rfl
  | cons d ds ih =>
    rw [List.cons_append]
    by_cases h : t.Grants d
    · rw [wrappings_cons_of_grants h, wrappings_cons_of_grants h, firstRefused_cons_of_grants h,
        ih, List.append_assoc]
    · rw [wrappings_cons_of_not_grants h, wrappings_cons_of_not_grants h,
        firstRefused_cons_of_not_grants h, if_neg (Option.some_ne_none d), List.append_nil]

theorem reported_append (ds es : List Demand) :
    t.reported origin (ds ++ es) =
      t.reported origin ds ++
        if t.firstRefused ds = none then t.reported origin es else [] := by
  unfold reported
  split
  · exact wrappings_append ds es
  · simp

/-- What the strict terms grant is no wrap. -/
theorem wrapping?_of_strict (h : strict.Grants d) : d.wrapping? origin = none := by
  cases d with
  | access x => rfl
  | stackRoom wrap sp => exact absurd rfl h
  | documented opcode => rfl

theorem wrappings_of_strict (h : strict.GrantsAll ds) : t.wrappings origin ds = [] := by
  induction ds with
  | nil => rfl
  | cons d ds ih =>
    obtain ⟨hd, hds⟩ := List.forall_mem_cons.1 h
    by_cases hg : t.Grants d
    · rw [wrappings_cons_of_grants hg, wrapping?_of_strict hd, ih hds]
      rfl
    · exact wrappings_cons_of_not_grants hg

theorem reported_of_strict (h : strict.GrantsAll ds) : t.reported origin ds = [] := by
  unfold reported
  rw [wrappings_of_strict h, ite_self]

/-- Where wraps are not refused, leniency makes no difference. -/
theorem grants_lenient_iff (h : t.stackCheck ≠ .fatal) : t.lenient.Grants d ↔ t.Grants d := by
  cases d with
  | access x => exact Iff.rfl
  | stackRoom wrap sp => exact iff_of_true nofun h
  | documented opcode => exact Iff.rfl

theorem wrappings_lenient (h : t.stackCheck ≠ .fatal) :
    t.lenient.wrappings origin ds = t.wrappings origin ds := by
  induction ds with
  | nil => rfl
  | cons d ds ih => simp only [wrappings, grants_lenient_iff h, ih]

end Terms

namespace Cpu

open NesCore.Action

variable {α β : Type} {c : Cpu} {ds es : List Demand} {origin : UInt16}

/-! ## Reports of an action -/

/-- The action reports no wrap, however it ends. -/
def Quiet (x : Action Cpu Fault α) : Prop := ∀ c, (x.run c).wrappings = []

/-- From `c` the action reports the wraps among the demands. -/
def Reports (origin : UInt16) (x : Action Cpu Fault α) (c : Cpu) (ds : List Demand) : Prop :=
  (x.run c).wrappings = c.terms.reported origin ds

theorem wrappings_bind {ε : Type} (x : Action Cpu ε α) (f : α → Action Cpu ε β) (c : Cpu) :
    ((x >>= f).run c).wrappings =
      match (x.run c).result with
      | .ok a => (x.run c).wrappings ++ ((f a).run (x.run c).state).wrappings
      | .error _ => (x.run c).wrappings := by
  refine (filterMap_events_bind _ x f c).trans ?_
  cases (x.run c).result <;> rfl

theorem wrappings_busWrite (m : Memory) (a : UInt16) (v : UInt8) :
    ((Bus.write a v).run m).wrappings = [] := by
  simp only [Bus.write]
  cases m.write a v with
  | error e => rfl
  | ok after => cases m.isProtected a <;> rfl

/-- Another account of the errors reports the same. -/
theorem wrappings_mapError_bind {ε ε₁ : Type} (x : Action Cpu ε α) (g : ε → ε₁)
    (f : α → Action Cpu ε₁ β) (c : Cpu) :
    ((x.mapError g >>= f).run c).wrappings =
      match (x.run c).result with
      | .ok a => (x.run c).wrappings ++ ((f a).run (x.run c).state).wrappings
      | .error _ => (x.run c).wrappings := by
  rw [wrappings_bind, run_mapError]
  cases (x.run c).result <;> rfl

/-- An action that does not check the stack has nothing to report. -/
theorem Composed.quiet {counts : Bool} {x : Action Cpu Fault α} (hx : Composed false counts x) :
    Quiet x := by
  intro c
  induction hx generalizing c with
  | pure | fail | update | read => rfl
  | note h => simp [Outcome.wrappings, Event.wrapping?, Event.notice?, h]
  | write a v => exact wrappings_busWrite c.memory a v
  | checkWrap h => cases h
  | look_bind h hf ih => exact ih c c
  | bind hx hf ihx ihf =>
    rw [wrappings_bind, ihx]
    split
    · exact ihf _ _
    · rfl

namespace Reports

theorem of_quiet {x : Action Cpu Fault α} (hx : Quiet x) (hds : Terms.strict.GrantsAll ds) :
    Reports origin x c ds := by
  unfold Reports
  rw [hx, Terms.reported_of_strict hds]

theorem bind {Q : α → Cpu → Prop} {x : Action Cpu Fault α} {f : α → Action Cpu Fault β}
    (hfollows : Follows x c ds Q) (hx : Reports origin x c ds)
    (hf : ∀ a s, Q a s → Reports origin (f a) s es) : Reports origin (x >>= f) c (ds ++ es) := by
  obtain ⟨-, hresult⟩ := hfollows
  unfold Reports at hx ⊢
  rw [wrappings_bind, hx, Terms.reported_append]
  cases hd : c.terms.firstRefused ds with
  | some d =>
    rw [hd] at hresult
    have herror : (x.run c).result = .error d.fault := hresult
    simp [herror]
  | none =>
    rw [hd] at hresult
    obtain ⟨a, ha, hterms, hq⟩ := hresult
    rw [ha, if_pos rfl, ← hterms]
    exact congrArg _ (hf a _ hq)

theorem look_bind {view : Cpu → β} {f : β → Action Cpu Fault α}
    (h : Reports origin (f (view c)) c ds) : Reports origin (look view >>= f) c ds := h

theorem update_bind {g : Cpu → Cpu} {f : Unit → Action Cpu Fault α}
    (ht : (g c).terms = c.terms) (h : Reports origin (f ()) (g c) ds) :
    Reports origin (update g >>= f) c ds := by
  unfold Reports at h ⊢
  rw [← ht, ← h]
  rfl

/-- A demand that is granted without a wrap is not reported. -/
theorem granted {x : Action Cpu Fault α} {d : Demand} (hg : c.terms.Grants d)
    (hd : d.wrapping? origin = none) (hx : Reports origin x c ds) :
    Reports origin x c (d :: ds) := by
  have hrest : c.terms.reported origin (d :: ds) = c.terms.reported origin ds := by
    unfold Terms.reported
    rw [Terms.wrappings_cons_of_grants hg, hd]
    rfl
  unfold Reports
  rw [hrest]
  exact hx

/-- `bind` for a rest that has nothing to report. -/
theorem bind_quiet {x : Action Cpu Fault α} {f : α → Action Cpu Fault β}
    (hx : Reports origin x c ds) (hf : ∀ a, Quiet (f a)) : Reports origin (x >>= f) c ds := by
  unfold Reports at hx ⊢
  rw [wrappings_bind, hx]
  split
  · rw [hf, List.append_nil]
  · rfl

end Reports

/-! ## The stack -/

theorem reports_checkWrap (origin : UInt16) (wrap : StackWrap) :
    Reports origin (checkWrap origin wrap) c [.stackRoom wrap c.sp] := by
  unfold Reports checkWrap
  rw [run_look_bind]
  dsimp only [id]
  cases h : c.config.stackCheck with
  | off => simp [Terms.reported, terms, h, Outcome.wrappings]
  | warn =>
    simp [Terms.reported, Terms.wrappings, Terms.Grants, terms, h, Demand.wrapping?,
      Outcome.wrappings, Event.wrapping?, Event.notice?, Notice.wrapping?]
  | fatal => simp [Terms.reported, terms, h, Outcome.wrappings]

theorem reports_push (origin : UInt16) (v : UInt8) :
    Reports origin (push origin v) c (pushDemands c.sp [v]) := by
  have hrest (sp : UInt8) : Quiet (do
      write (stackAddress sp) v
      update fun c => c.setRegister .sp (sp - 1)) :=
    (Composed.bind (.write _ _) fun _ => .update (isLocal_setRegister _ _) :
      Composed false false _).quiet
  have haccess : Terms.strict.GrantsAll [.write (stackAddress c.sp) v] :=
    .cons (grants_access (by decide) _) .nil
  unfold push
  refine .look_bind ?_
  by_cases hsp : c.sp = 0x00
  · have hcheck := Reports.bind (follows_checkWrap (c := c) origin .overflow)
      (reports_checkWrap origin .overflow) fun _ _ _ => .of_quiet (hrest c.sp) haccess
    simpa [pushDemands, roomToPush, hsp] using hcheck
  · simpa [pushDemands, roomToPush, hsp] using Reports.of_quiet (hrest c.sp) haccess

theorem reports_pull (origin : UInt16) :
    Reports origin (pull origin) c (pullDemands c.sp 1) := by
  have hrest (sp : UInt8) : Quiet (do
      update fun c => c.setRegister .sp (sp + 1)
      read (stackAddress (sp + 1))) :=
    (Composed.bind (.update (isLocal_setRegister _ _)) fun _ => .read _ :
      Composed false false _).quiet
  have haccess : Terms.strict.GrantsAll [.read (stackAddress (c.sp + 1))] :=
    .cons (grants_access (by decide) _) .nil
  unfold pull
  refine .look_bind ?_
  by_cases hsp : c.sp = 0xFF
  · have hcheck := Reports.bind (follows_checkWrap (c := c) origin .underflow)
      (reports_checkWrap origin .underflow) fun _ _ _ => .of_quiet (hrest c.sp) haccess
    simpa [pullDemands, roomToPull, hsp] using hcheck
  · simpa [pullDemands, roomToPull, hsp] using Reports.of_quiet (hrest c.sp) haccess

theorem reports_pushWord (origin w : UInt16) :
    Reports origin (pushWord origin w) c (pushDemands c.sp [Word.high w, Word.low w]) := by
  rw [pushDemands_cons]
  refine .bind (follows_push origin _) (reports_push origin _) fun _ s hs => ?_
  rw [hs]
  exact reports_push origin _

theorem reports_pullWord (origin : UInt16) :
    Reports origin (pullWord origin) c (pullDemands c.sp 2) := by
  rw [pullDemands_succ]
  refine .bind (follows_pull origin) (reports_pull origin) fun _ s hs => ?_
  rw [hs.2]
  exact (reports_pull origin).bind_quiet fun _ _ => rfl

theorem reports_pullStatusByte (origin : UInt16) :
    Reports origin (pullStatusByte origin) c (pullDemands c.sp 1) :=
  (reports_pull origin).bind_quiet fun _ _ => rfl

/-! ## Interrupts -/

theorem reports_softwareInterrupt (h : c.pc = origin + 1) :
    Reports origin (softwareInterrupt origin) c
      (pushDemands c.sp
          [Word.high (c.pc + 1), Word.low (c.pc + 1), c.status.pushedBySoftware.toByte]
        ++ vectorReads irqVector) := by
  have hreturn : origin + 2 = c.pc + 1 := by rw [h, UInt16.add_assoc]; rfl
  have hrest : Composed false false (do enterHandler irqVector; return Flow.jump) :=
    .bind (composed_enterHandler _) fun _ => .pure _
  unfold softwareInterrupt
  rw [hreturn, pushDemands_word, List.append_assoc]
  refine .bind (follows_pushWord origin _) (reports_pushWord origin _) fun _ s hs => ?_
  subst hs
  refine .look_bind (.bind (follows_push origin _) (reports_push origin _) fun _ _ _ => ?_)
  exact .of_quiet hrest.quiet (grantsAll_vectorReads (by decide) (by decide))

theorem reports_enterInterrupt (origin : UInt16) (kind : Interrupt) :
    Reports origin (enterInterrupt origin kind) c
      (pushDemands c.sp c.savedByEntry ++ vectorReads kind.vector) := by
  have hrest : Composed false true (do
      enterHandler kind.vector
      update fun c => { c with cycles := c.cycles + 7 }
      note (.interruptTaken kind (← look fun c => c.pc))) :=
    .bind (composed_enterHandler _) fun _ =>
      .bind (.update { ledger := nofun }) fun _ =>
        .look_bind (fun _ _ _ => rfl) fun _ => .note rfl nofun
  have hvector : Terms.strict.GrantsAll (vectorReads kind.vector) := by
    cases kind <;> exact grantsAll_vectorReads (by decide) (by decide)
  unfold enterInterrupt savedByEntry
  refine .look_bind ?_
  rw [pushDemands_word, List.append_assoc]
  refine .bind (follows_pushWord origin c.pc) (reports_pushWord origin _) fun _ s hs => ?_
  subst hs
  refine .bind (follows_push origin _) (reports_push origin _) fun _ _ _ => ?_
  exact .of_quiet hrest.quiet hvector

theorem reports_serviceInterrupts (origin : UInt16) :
    Reports origin (serviceInterrupts origin) c c.entryDemands := by
  unfold serviceInterrupts entryDemands
  refine .look_bind ?_
  dsimp only [id]
  by_cases hn : c.nmiPending
  · have hdue : c.interruptDue = some .nmi := if_pos hn
    rw [hdue, if_pos hn]
    refine .update_bind rfl ?_
    exact (reports_enterInterrupt origin .nmi).bind_quiet fun _ _ => rfl
  rw [if_neg hn]
  by_cases hi : c.irqPending
  · rw [if_pos hi]
    refine .update_bind rfl ?_
    by_cases hm : c.status.interruptDisable
    · have hdue : c.interruptDue = none := by simp [interruptDue, hn, hm]
      have hmasked : Composed false false (do note .irqMasked; return (none : Option Interrupt)) :=
        .bind (.note rfl fun _ => rfl) fun _ => .pure _
      rw [hdue, if_pos hm]
      exact .of_quiet hmasked.quiet .nil
    · have hdue : c.interruptDue = some .irq := by simp [interruptDue, hn, hi, hm]
      rw [hdue, if_neg hm]
      exact (reports_enterInterrupt origin .irq).bind_quiet fun _ _ => rfl
  · have hdue : c.interruptDue = none := by simp [interruptDue, hn, hi]
    rw [hdue, if_neg hi]
    exact .of_quiet (fun _ => rfl) .nil

/-! ## Instructions -/

theorem stackDemands_of_not_usesStack {operation : Operation} (h : operation.usesStack = false)
    (c : Cpu) : c.stackDemands operation = [] := by
  cases operation <;> first | rfl | cases h

theorem reports_execute (operation : Operation) {mode : Mode}
    (hadmits : operation.Admits mode) (hpc : c.pc = origin + 1) :
    Reports origin (execute origin operation (c.operand mode)) c
      (c.dataDemands operation mode ++ c.stackDemands operation) := by
  cases h : operation.usesStack with
  | false =>
    have hcomposed := composed_execute origin operation (c.operand mode)
    rw [h] at hcomposed
    rw [stackDemands_of_not_usesStack h, List.append_nil]
    exact .of_quiet hcomposed.quiet (grantsAll_dataDemands (by decide) c operation mode)
  | true =>
    unfold execute
    refine .look_bind ?_
    cases operation with
    | pushAccumulator | pushStatus => exact (reports_push origin _).bind_quiet fun _ _ => rfl
    | pullAccumulator => exact (reports_pull origin).bind_quiet fun _ _ => rfl
    | pullStatus => exact (reports_pullStatusByte origin).bind_quiet fun _ _ => rfl
    | call =>
      refine .bind (follows_operandAddress (c.crossesPage mode) (hadmits.address rfl).1
        (hadmits.address rfl).2) (.of_quiet (@composed_operandAddress false false _).quiet .nil) fun _ s hs => ?_
      obtain ⟨-, rfl⟩ := hs
      exact (reports_pushWord origin _).bind_quiet fun _ _ => rfl
    | returnFromCall => exact (reports_pullWord origin).bind_quiet fun _ _ => rfl
    | returnFromInterrupt =>
      show Reports origin _ c (pullDemands c.sp 3)
      rw [pullDemands_succ]
      refine .bind (follows_pullStatusByte origin) (reports_pullStatusByte origin)
        fun _ s hs => ?_
      subst hs
      exact (reports_pullWord origin).bind_quiet fun _ _ => rfl
    | brk =>
      show Reports origin _ c (c.stackDemands .brk)
      dsimp only [id, stackDemands]
      cases c.config.brk with
      | halt => exact .of_quiet (fun _ => rfl) .nil
      | interrupt => exact reports_softwareInterrupt hpc
    | _ => cases h

theorem reports_executeNext : Reports c.pc (executeNext c.pc) c c.nextDemands := by
  unfold executeNext nextDemands
  have hfetch : Terms.strict.GrantsAll [.read c.pc] := .cons (grants_access (by decide) _) .nil
  show Reports _ _ c ([.read c.pc] ++ _)
  refine .bind follows_fetch (.of_quiet (@composed_fetch false false).quiet hfetch)
    fun opcode s hs => ?_
  obtain ⟨rfl, rfl⟩ := hs
  cases hl : Instruction.lookup (c.memory.peek c.pc) with
  | none =>
    have hd : ¬ c.afterOpcode.terms.Grants (.documented (c.memory.peek c.pc)) := by
      simp [Terms.Grants, hl]
    unfold Reports Terms.reported
    rw [Terms.wrappings_cons_of_not_grants hd, ite_self]
    rfl
  | some ins =>
    have hd : c.afterOpcode.terms.Grants (.documented (c.memory.peek c.pc)) := by
      simp [Terms.Grants, hl]
    have hrow := Instruction.mem_table_of_lookup hl
    have hresolve : Terms.strict.GrantsAll (c.afterOpcode.resolveDemands ins.mode) :=
      .append (.ite .nil (grantsAll_operandReads (by decide) _ _))
        (grantsAll_pointerReads (by decide) _ _)
    refine .granted hd rfl ?_
    show Reports _ _ _ (c.afterOpcode.instructionDemands ins)
    rw [instructionDemands_eq _ hrow]
    refine .bind (follows_resolve ins.mode)
      (.of_quiet (@composed_resolve false false ins.mode).quiet hresolve) fun operand s hs => ?_
    obtain ⟨rfl, rfl⟩ := hs
    refine .bind_quiet (reports_execute ins.operation (Instruction.admits hrow) rfl) fun flow => ?_
    intro s
    cases flow <;> rfl

/-! ## Steps -/

/-- The wraps of a step that none of them stops. -/
def wraps (c : Cpu) : List Wrapping :=
  if c.state = .running then
    c.terms.lenient.wrappings c.pc c.entryDemands
      ++ c.terms.lenient.wrappings c.fetchAddress c.afterEntry.nextDemands
  else []

theorem wrappings_runningStep (c : Cpu) :
    (runningStep.run c).wrappings =
      c.terms.reported c.pc c.entryDemands ++
        if c.terms.firstRefused c.entryDemands = none then
          c.terms.reported c.fetchAddress c.afterEntry.nextDemands
        else [] := by
  have hentry : ((serviceInterrupts c.pc).run c).wrappings = _ := reports_serviceInterrupts c.pc
  obtain ⟨-, hresult⟩ := follows_serviceInterrupts (c := c) c.pc
  rw [run_runningStep, wrappings_mapError_bind, hentry]
  cases hd : c.terms.firstRefused c.entryDemands with
  | some d =>
    rw [hd] at hresult
    have herror : ((serviceInterrupts c.pc).run c).result = .error d.fault := hresult
    simp [herror]
  | none =>
    rw [hd] at hresult
    obtain ⟨kind, hkind, hterms, -, hs⟩ := hresult
    have hnext : ((executeNext c.afterEntry.pc).run c.afterEntry).wrappings = _ :=
      reports_executeNext
    rw [hs] at hterms
    rw [hkind, if_pos rfl, ← pc_afterEntry, ← hterms, ← hnext]
    show _ ++ _ = _
    refine congrArg _ ?_
    rw [hs, run_look_bind, wrappings_mapError_bind]
    cases ((executeNext c.afterEntry.pc).run c.afterEntry).result with
    | error e => rfl
    | ok r => exact List.append_nil _

theorem wrappings_faultedOnError {α : Type} (o : Outcome Cpu CpuError α) :
    (faultedOnError o).wrappings = o.wrappings := by
  unfold faultedOnError
  split <;> rfl

/-- **A step reports its wraps exactly if it is to.** Under the warning check every wrap is
reported once and in order, under the other checks none is. -/
theorem wrappings_step (c : Cpu) :
    (step.run c).wrappings = if c.config.stackCheck = .warn then c.wraps else [] := by
  by_cases hs : c.state = .running
  · rw [run_step_of_running hs, wrappings_faultedOnError, wrappings_runningStep]
    unfold Terms.reported
    by_cases hw : c.config.stackCheck = .warn
    · have hfatal : c.terms.stackCheck ≠ .fatal := by
        show c.config.stackCheck ≠ .fatal
        rw [hw]
        decide
      have hwraps : c.wraps = _ := if_pos hs
      rw [if_pos (grantsAll_entryDemands hfatal c).firstRefused_eq_none, if_pos hw, hwraps,
        Terms.wrappings_lenient hfatal, Terms.wrappings_lenient hfatal]
      exact congr (congrArg _ (if_pos hw)) (if_pos hw)
    · have hnone (origin : UInt16) (ds : List Demand) : (if c.terms.stackCheck = .warn then
          c.terms.wrappings origin ds else []) = [] := if_neg hw
      rw [hnone, hnone, if_neg hw, ite_self]
      rfl
  · have hwraps : c.wraps = [] := if_neg hs
    rw [hwraps, ite_self, Outcome.wrappings, events_step_of_not_running hs]
    rfl

end Cpu

end NesCore
