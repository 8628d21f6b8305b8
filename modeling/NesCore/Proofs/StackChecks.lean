import NesCore.Proofs.Comparison
import NesCore.Proofs.Course.Wraps
import NesCore.Proofs.Recorded
import NesCore.Proofs.Schedule

/-!
# The three stack checks

The checks differ in what they make of a wrap of the stack pointer: one lets it pass, one reports
it, one stops the step. As long as a run does not wrap the stack pointer it is the same under all
of them, and the reporting check never changes a run. A step that wraps stops under the fatal check
at the first wrap, before the access that it is about (`stops_of_wraps`).

Main statement: `stack_checks_agree`.
-/

namespace NesCore

/-! ## The access behind a wrap -/

/-- The access of the push or pull that wraps. Both are at the foot of the stack. -/
def Wrapping.MadeBy (w : Wrapping) (x : BusAccess) : Prop :=
  match w.wrap with
  | .overflow => w.sp = 0x00 ∧ ∃ v, x = .write 0x0100 v
  | .underflow => w.sp = 0xFF ∧ x = .read 0x0100

/-- Every demand for room on the stack comes right before the access that it is for. -/
inductive RoomsUsed : List Demand → Prop
  | nil : RoomsUsed []
  | cons {d : Demand} {ds : List Demand} (hd : ∀ origin, d.wrapping? origin = none)
    (h : RoomsUsed ds) : RoomsUsed (d :: ds)
  | room {wrap : StackWrap} {sp : UInt8} {x : BusAccess} {ds : List Demand}
    (hx : ∀ origin, Wrapping.MadeBy ⟨origin, wrap, sp⟩ x) (h : RoomsUsed ds) :
    RoomsUsed (.stackRoom wrap sp :: .access x :: ds)

namespace RoomsUsed

variable {ds es : List Demand}

theorem append (hds : RoomsUsed ds) (hes : RoomsUsed es) : RoomsUsed (ds ++ es) := by
  induction hds with
  | nil => exact hes
  | cons hd _ ih => exact .cons hd ih
  | room hx _ ih => exact .room hx ih

theorem of_strict (h : Terms.strict.GrantsAll ds) : RoomsUsed ds := by
  induction ds with
  | nil => exact .nil
  | cons d ds ih =>
    obtain ⟨hd, hds⟩ := List.forall_mem_cons.1 h
    exact .cons (fun _ => Terms.wrapping?_of_strict hd) (ih hds)

end RoomsUsed

namespace Cpu

theorem roomsUsed_pushDemands (sp : UInt8) (bytes : List UInt8) :
    RoomsUsed (pushDemands sp bytes) := by
  induction bytes generalizing sp with
  | nil => exact .nil
  | cons v rest ih =>
    unfold pushDemands roomToPush
    split
    · next h =>
      subst h
      exact .room (fun _ => ⟨rfl, v, rfl⟩) (ih _)
    · exact .cons (fun _ => rfl) (ih _)

theorem roomsUsed_pullDemands (sp : UInt8) (n : Nat) : RoomsUsed (pullDemands sp n) := by
  induction n generalizing sp with
  | zero => exact .nil
  | succ n ih =>
    unfold pullDemands roomToPull
    split
    · next h =>
      subst h
      exact .room (fun _ => ⟨rfl, rfl⟩) (ih _)
    · exact .cons (fun _ => rfl) (ih _)

theorem roomsUsed_vectorReads (vector : UInt16) : RoomsUsed (vectorReads vector) :=
  .cons (fun _ => rfl) (.cons (fun _ => rfl) .nil)

theorem roomsUsed_entryDemands (c : Cpu) : RoomsUsed c.entryDemands := by
  unfold entryDemands
  cases c.interruptDue with
  | none => exact .nil
  | some kind => exact (roomsUsed_pushDemands _ _).append (roomsUsed_vectorReads _)

theorem roomsUsed_stackDemands (c : Cpu) (operation : Operation) :
    RoomsUsed (c.stackDemands operation) := by
  unfold stackDemands
  cases operation with
  | pushAccumulator | pushStatus | call => exact roomsUsed_pushDemands _ _
  | pullAccumulator | pullStatus | returnFromCall | returnFromInterrupt =>
    exact roomsUsed_pullDemands _ _
  | brk =>
    dsimp only
    cases c.config.brk with
    | halt => exact .nil
    | interrupt => exact (roomsUsed_pushDemands _ _).append (roomsUsed_vectorReads _)
  | _ => exact .nil

theorem roomsUsed_nextDemands (c : Cpu) : RoomsUsed c.nextDemands := by
  refine .cons (fun _ => rfl) (.cons (fun _ => rfl) ?_)
  cases Instruction.lookup (c.memory.peek c.pc) with
  | none => exact .nil
  | some ins =>
    show RoomsUsed (c.afterOpcode.instructionDemands ins)
    refine (RoomsUsed.of_strict (.append (.append ?_ ?_) (.ite .nil ?_))).append
      (roomsUsed_stackDemands _ _)
    · exact grantsAll_operandReads (by decide) _ _
    · exact grantsAll_pointerReads (by decide) _ _
    · exact grantsAll_dataDemands (by decide) _ _ _

end Cpu

/-! ## Terms that refuse wraps -/

namespace Terms

variable {t : Terms} {d : Demand} {ds : List Demand} {origin : UInt16} {w : Wrapping}
  {ws : List Wrapping}

theorem grants_lenient (h : t.Grants d) : t.lenient.Grants d := by
  cases d with
  | access x => exact h
  | stackRoom wrap sp => exact nofun
  | documented opcode => exact h

theorem grants_of_lenient (hd : d.wrapping? origin = none) (h : t.lenient.Grants d) :
    t.Grants d := by
  cases d with
  | access x => exact h
  | stackRoom wrap sp => cases hd
  | documented opcode => exact h

/-- Without wraps, leniency makes no difference. -/
theorem lenient_of_wrappings_eq_nil (h : t.lenient.wrappings origin ds = []) :
    t.carriedOut ds = t.lenient.carriedOut ds ∧
      t.firstRefused ds = t.lenient.firstRefused ds := by
  induction ds with
  | nil => exact ⟨rfl, rfl⟩
  | cons d ds ih =>
    by_cases hg : t.lenient.Grants d
    · rw [wrappings_cons_of_grants hg, List.append_eq_nil_iff] at h
      have hd : d.wrapping? origin = none := by simpa using h.1
      have hg' : t.Grants d := grants_of_lenient hd hg
      rw [carriedOut_cons_of_grants hg, carriedOut_cons_of_grants hg',
        firstRefused_cons_of_grants hg, firstRefused_cons_of_grants hg', (ih h.2).1]
      exact ⟨rfl, (ih h.2).2⟩
    · have hg' : ¬ t.Grants d := fun h => hg (grants_lenient h)
      rw [carriedOut_cons_of_not_grants hg, carriedOut_cons_of_not_grants hg',
        firstRefused_cons_of_not_grants hg, firstRefused_cons_of_not_grants hg']
      exact ⟨rfl, rfl⟩

/-- The fatal check stops at the first wrap, before the access behind it. -/
theorem firstRefused_of_wrappings_eq_cons (hused : RoomsUsed ds) (ht : t.stackCheck = .fatal)
    (h : t.lenient.wrappings origin ds = w :: ws) :
    w.origin = origin ∧ t.firstRefused ds = some (.stackRoom w.wrap w.sp) ∧
      ∃ x rest, w.MadeBy x ∧ t.lenient.carriedOut ds = t.carriedOut ds ++ x :: rest := by
  induction hused with
  | nil => cases h
  | @cons d ds hd _ ih =>
    by_cases hg : t.lenient.Grants d
    · have hg' : t.Grants d := grants_of_lenient (hd origin) hg
      rw [wrappings_cons_of_grants hg, hd origin] at h
      obtain ⟨horigin, hrefused, x, rest, hx, hcarried⟩ := ih h
      refine ⟨horigin, ?_, x, rest, hx, ?_⟩
      · rw [firstRefused_cons_of_grants hg', hrefused]
      · rw [carriedOut_cons_of_grants hg, carriedOut_cons_of_grants hg', hcarried,
          List.append_assoc]
    · rw [wrappings_cons_of_not_grants hg] at h
      cases h
  | @room wrap sp x ds hx _ _ =>
    have hg : t.lenient.Grants (.stackRoom wrap sp) := nofun
    have hg' : ¬ t.Grants (.stackRoom wrap sp) := fun h => h ht
    rw [wrappings_cons_of_grants hg] at h
    have hw : (⟨origin, wrap, sp⟩ : Wrapping) = w := (List.cons_eq_cons.1 h).1
    subst hw
    refine ⟨rfl, firstRefused_cons_of_not_grants hg' _, x,
      if t.lenient.Grants (.access x) then t.lenient.carriedOut ds else [], hx origin, ?_⟩
    rw [carriedOut_cons_of_grants hg, carriedOut_cons_of_not_grants hg']
    rfl

/-- Every wrap that is met belongs to an access that is made. -/
theorem exists_access_of_mem_wrappings (hused : RoomsUsed ds) (h : w ∈ t.wrappings origin ds) :
    ∃ x ∈ t.carriedOut ds, w.MadeBy x := by
  induction hused with
  | nil => cases h
  | @cons d ds hd _ ih =>
    by_cases hg : t.Grants d
    · rw [wrappings_cons_of_grants hg, hd origin] at h
      obtain ⟨x, hx, hmade⟩ := ih h
      rw [carriedOut_cons_of_grants hg]
      exact ⟨x, List.mem_append_right _ hx, hmade⟩
    · rw [wrappings_cons_of_not_grants hg] at h
      cases h
  | @room wrap sp x ds hx _ ih =>
    by_cases hg : t.Grants (.stackRoom wrap sp)
    · rw [wrappings_cons_of_grants hg] at h
      rw [carriedOut_cons_of_grants hg]
      rcases List.mem_cons.1 h with rfl | h
      · exact ⟨x, List.mem_cons_self, hx origin⟩
      · by_cases hgx : t.Grants (.access x)
        · rw [wrappings_cons_of_grants hgx] at h
          obtain ⟨y, hy, hmade⟩ := ih h
          rw [carriedOut_cons_of_grants hgx]
          exact ⟨y, List.mem_cons_of_mem _ hy, hmade⟩
        · rw [wrappings_cons_of_not_grants hgx] at h
          cases h
    · rw [wrappings_cons_of_not_grants hg] at h
      cases h

end Terms

/-! ## Two checks -/

namespace Cpu

open NesCore.Action

variable {c d : Cpu} {w : Wrapping} {ws : List Wrapping}

/-- The processor with another stack check. -/
def withCheck (c : Cpu) (check : StackCheck) : Cpu :=
  { c with config := { c.config with stackCheck := check } }

/-- Two stack checks compared, until the first one stops a step. Reports of wraps are left out. -/
def checks (first second : StackCheck) : Comparison where
  Related m check m' check' := check = first ∧ m' = m ∧ check' = second
  Stops e := first = .fatal ∧ ∃ wrap sp, e = .stack wrap sp
  shows e := e.wrapping?.isNone

variable {first second : StackCheck}

theorem rel_checks_iff :
    (checks first second).Rel c d ↔ c.config.stackCheck = first ∧ d = c.withCheck second := by
  constructor
  · rintro ⟨m, check, rfl, hfirst, rfl, rfl⟩
    exact ⟨hfirst, rfl⟩
  · rintro ⟨hfirst, rfl⟩
    exact ⟨_, _, rfl, hfirst, rfl, rfl⟩

theorem matches_onBus_of_checks {α : Type} (x : Action Memory BusError α)
    (h : (checks first second).Rel c d) :
    (checks first second).Matches (checks first second).Stops (onBus x) c d := by
  obtain ⟨hfirst, rfl⟩ := rel_checks_iff.1 h
  exact .inr ⟨rfl, rel_checks_iff.2 ⟨hfirst, rfl⟩, rfl⟩

/-- A check that does not stop the step reports at most the wrap. -/
theorem run_checkWrap_of_ne_fatal (h : c.config.stackCheck ≠ .fatal) (origin : UInt16)
    (wrap : StackWrap) : ∃ events, (checkWrap origin wrap).run c = ⟨events, .ok (), c⟩ ∧
      events.filter (checks first second).shows = [] := by
  unfold checkWrap
  rw [run_look_bind]
  dsimp only [id]
  cases hc : c.config.stackCheck with
  | off => exact ⟨[], rfl, rfl⟩
  | warn => exact ⟨[.notice (.stackWrapped wrap origin c.sp)], rfl, rfl⟩
  | fatal => exact absurd hc h

theorem isSound_checks (h : second ≠ .fatal) : (checks first second).IsSound where
  read a hrel := matches_onBus_of_checks _ hrel
  write a v hrel := matches_onBus_of_checks _ hrel
  checkWrap {c d} origin wrap hrel := by
    obtain ⟨rfl, rfl⟩ := rel_checks_iff.1 hrel
    by_cases hc : c.config.stackCheck = .fatal
    · refine .inl ⟨.stack wrap c.sp, ⟨hc, wrap, c.sp, rfl⟩, ?_⟩
      unfold checkWrap
      rw [run_look_bind]
      dsimp only [id]
      rw [hc]
      rfl
    · obtain ⟨es, hrun, hes⟩ := run_checkWrap_of_ne_fatal hc origin wrap
      obtain ⟨es', hrun', hes'⟩ :=
        run_checkWrap_of_ne_fatal (c := c.withCheck second) h origin wrap
      unfold Comparison.Matches
      rw [hrun, hrun']
      exact .inr ⟨rfl, hrel, hes'.trans hes.symm⟩

/-! ## One step -/

theorem afterEntry_withCheck (c : Cpu) (check : StackCheck) :
    (c.withCheck check).afterEntry = c.afterEntry.withCheck check := by
  have hack : (c.withCheck check).acknowledged = c.acknowledged.withCheck check := by
    unfold acknowledged
    show (if c.nmiPending then _ else _) = _
    split <;> rfl
  unfold afterEntry
  rw [hack]
  show c.interruptDue.elim _ _ = _
  cases c.interruptDue <;> rfl

/-- What a step demands does not depend on the stack check. -/
theorem afterEntry_nextDemands_withCheck (c : Cpu) (check : StackCheck) :
    (c.withCheck check).afterEntry.nextDemands = c.afterEntry.nextDemands := by
  rw [afterEntry_withCheck]
  rfl

theorem wraps_withCheck (c : Cpu) (check : StackCheck) : (c.withCheck check).wraps = c.wraps := by
  unfold wraps
  rw [afterEntry_nextDemands_withCheck]
  rfl

theorem withCheck_withCheck_of_eq {check : StackCheck} (h : c.config.stackCheck = check)
    (other : StackCheck) : (c.withCheck other).withCheck check = c := by
  subst h
  rfl

theorem filter_shows_of_wrappings_eq_nil {ε α : Type} {o : Outcome Cpu ε α}
    (h : o.wrappings = []) : o.events.filter (checks first second).shows = o.events := by
  rw [List.filter_eq_self]
  intro e he
  exact Option.isNone_iff_eq_none.2 (List.filterMap_eq_nil_iff.1 h e he)

/-- Without wraps a step fails as it does without a check. -/
theorem stepError?_withCheck_off (h : c.state = .running) (hw : c.wraps = []) :
    (c.withCheck .off).stepError? = c.stepError? := by
  have hwraps : c.wraps = _ := if_pos h
  rw [hwraps, List.append_eq_nil_iff] at hw
  have hterms : (c.withCheck .off).terms = c.terms.lenient := rfl
  unfold stepError?
  rw [afterEntry_nextDemands_withCheck, afterEntry_withCheck, hterms,
    (Terms.lenient_of_wrappings_eq_nil hw.1).2, (Terms.lenient_of_wrappings_eq_nil hw.2).2]
  rfl

/-- A step that wraps stops under the fatal check, at the first wrap and before its access. -/
theorem stops_of_wraps (hc : c.config.stackCheck = .fatal) (hw : c.wraps = w :: ws) :
    (step.run c).result = .error ⟨w.origin, .stack w.wrap w.sp⟩ ∧
      ∃ x rest, w.MadeBy x ∧
        (step.run (c.withCheck .off)).accesses = (step.run c).accesses ++ x :: rest := by
  have hs : c.state = .running := by
    by_contra hs
    have hwraps : c.wraps = [] := if_neg hs
    rw [hwraps] at hw
    cases hw
  have hwraps : c.wraps = _ := if_pos hs
  have hterms : (c.withCheck .off).terms = c.terms.lenient := rfl
  have hdemands : (c.withCheck .off).stepDemands = c.entryDemands ++ c.afterEntry.nextDemands :=
    congrArg (c.entryDemands ++ ·) (afterEntry_nextDemands_withCheck c .off)
  obtain ⟨haccesses, -⟩ := ends_step hs
  obtain ⟨haccesses', -⟩ := ends_step (c := c.withCheck .off) hs
  rw [result_step_eq_error_iff hs, haccesses, haccesses', hterms, hdemands, stepDemands,
    stepError?, Terms.carriedOut_append, Terms.carriedOut_append]
  rw [hwraps] at hw
  cases hentry : c.terms.lenient.wrappings c.pc c.entryDemands with
  | cons w' ws' =>
    -- The entry of the interrupt wraps, and the instruction is not reached.
    obtain ⟨horigin, hrefused, x, rest, hx, hcarried⟩ :=
      Terms.firstRefused_of_wrappings_eq_cons (roomsUsed_entryDemands c) hc hentry
    rw [hentry] at hw
    have hw' : w' = w := (List.cons_eq_cons.1 hw).1
    subst hw'
    rw [hrefused, hcarried, horigin, if_neg (Option.some_ne_none _), List.append_nil,
      List.append_assoc]
    exact ⟨rfl, x, _, hx, rfl⟩
  | nil =>
    rw [hentry] at hw
    have hoff : c.terms.lenient.stackCheck ≠ .fatal := show StackCheck.off ≠ .fatal by decide
    have hgranted : c.terms.lenient.firstRefused c.entryDemands = none :=
      (grantsAll_entryDemands hoff c).firstRefused_eq_none
    obtain ⟨hcarried, hrefused⟩ := Terms.lenient_of_wrappings_eq_nil hentry
    obtain ⟨horigin, hrefused', x, rest, hx, hcarried'⟩ :=
      Terms.firstRefused_of_wrappings_eq_cons (roomsUsed_nextDemands c.afterEntry) hc hw
    rw [hrefused, hgranted, hrefused', hcarried, hcarried', if_pos rfl, if_pos rfl, horigin,
      ← pc_afterEntry]
    exact ⟨rfl, x, rest, hx, (List.append_assoc ..).symm⟩

/-- Where nothing stops a wrap, the push or pull is made. -/
theorem exists_access_of_mem_wraps (hc : c.config.stackCheck = .off) (hw : w ∈ c.wraps) :
    ∃ x ∈ (step.run c).accesses, w.MadeBy x := by
  by_cases hs : c.state = .running
  · have hwraps : c.wraps = _ := if_pos hs
    have hoff : c.terms.stackCheck ≠ .fatal := by
      show c.config.stackCheck ≠ .fatal
      rw [hc]
      decide
    obtain ⟨haccesses, -⟩ := ends_step hs
    rw [hwraps, Terms.wrappings_lenient hoff, Terms.wrappings_lenient hoff] at hw
    rw [haccesses, stepDemands, Terms.carriedOut_append,
      if_pos (grantsAll_entryDemands hoff c).firstRefused_eq_none]
    rcases List.mem_append.1 hw with hw | hw
    · obtain ⟨x, hx, hmade⟩ := Terms.exists_access_of_mem_wrappings (roomsUsed_entryDemands c) hw
      exact ⟨x, List.mem_append_left _ hx, hmade⟩
    · obtain ⟨x, hx, hmade⟩ :=
        Terms.exists_access_of_mem_wrappings (roomsUsed_nextDemands c.afterEntry) hw
      exact ⟨x, List.mem_append_right _ hx, hmade⟩
  · have hwraps : c.wraps = [] := if_neg hs
    rw [hwraps] at hw
    cases hw

theorem wrappings_step_of_ne_warn (h : c.config.stackCheck ≠ .warn) :
    (step.run c).wrappings = [] := (wrappings_step c).trans (if_neg h)

/-- The warning check changes nothing but what is reported. -/
theorem run_step_withCheck_warn (hc : c.config.stackCheck = .off) :
    let o := step.run c
    let w := step.run (c.withCheck .warn)
    w.result = o.result ∧ w.state = o.state.withCheck .warn ∧
      w.events.filter (fun e => e.wrapping?.isNone) = o.events ∧
      o.wrappings = [] ∧ w.wrappings = c.wraps := by
  intro o w
  have hquiet : o.wrappings = [] := wrappings_step_of_ne_warn (by rw [hc]; decide)
  have hwraps : w.wrappings = c.wraps :=
    (wrappings_step _).trans ((if_pos rfl).trans (wraps_withCheck c _))
  have hrel : (checks .off .warn).Rel c (c.withCheck .warn) := rel_checks_iff.2 ⟨hc, rfl⟩
  rcases (isSound_checks (by decide)).matches_step hrel fun _ => rfl with ⟨e, he, -⟩ | hagree
  · exact absurd he.1 (by decide)
  · have hevents := hagree.events
    rw [filter_shows_of_wrappings_eq_nil hquiet] at hevents
    exact ⟨hagree.result, (rel_checks_iff.1 hagree.state).2, hevents, hquiet, hwraps⟩

/-- A step without wraps does not fail on the stack. -/
theorem not_stack_error_of_wraps_eq_nil (hw : c.wraps = []) {e : CpuError}
    (he : (step.run c).result = .error e) (wrap : StackWrap) (sp : UInt8) :
    e.fault ≠ .stack wrap sp := by
  intro hfault
  rcases cause_of_step_error he with ⟨hs, -⟩ | ⟨-, rfl⟩
  · have herror := (result_step_eq_error_iff hs).1 he
    rw [← stepError?_withCheck_off hs hw] at herror
    have hcause := hasCause_of_stepError herror
    rw [hfault] at hcause
    cases hcause
  · cases hfault

/-- A step without wraps is the same under the fatal check. -/
theorem run_step_withCheck_fatal (hc : c.config.stackCheck = .off) (hw : c.wraps = []) :
    step.run (c.withCheck .fatal) = (step.run c).onState fun s => s.withCheck .fatal := by
  have hback : c = (c.withCheck .fatal).withCheck .off := (withCheck_withCheck_of_eq hc _).symm
  have hrel : (checks .fatal .off).Rel (c.withCheck .fatal) c := rel_checks_iff.2 ⟨rfl, hback⟩
  rcases (isSound_checks (by decide)).matches_step hrel fun _ => rfl with ⟨e, he, hresult⟩ | hagree
  · obtain ⟨-, wrap, sp, hfault⟩ := he
    have hwraps : (c.withCheck .fatal).wraps = [] := (wraps_withCheck c _).trans hw
    exact absurd hfault (not_stack_error_of_wraps_eq_nil hwraps hresult wrap sp)
  · obtain ⟨hresult, hstate, hevents⟩ := hagree
    obtain ⟨hfatal, hs⟩ := rel_checks_iff.1 hstate
    have hquiet : (step.run c).wrappings = [] := wrappings_step_of_ne_warn (by rw [hc]; decide)
    have hquiet' : (step.run (c.withCheck .fatal)).wrappings = [] := wrappings_step_of_ne_warn nofun
    rw [filter_shows_of_wrappings_eq_nil hquiet,
      filter_shows_of_wrappings_eq_nil hquiet'] at hevents
    refine Outcome.eq_onState hevents.symm hresult.symm ?_
    rw [hs, withCheck_withCheck_of_eq hfatal]

/-! ## Runs -/

theorem requests_withCheck (check : StackCheck) (c : Cpu) (kinds : List Interrupt) :
    (c.requests kinds).withCheck check = (c.withCheck check).requests kinds := by
  rw [requests_eq, requests_eq]
  rfl

/-- No run changes the stack check. -/
theorem stackCheck_of_mem_starts {check : StackCheck} (hc : c.config.stackCheck = check)
    {schedule : Schedule} {s : Cpu} (hs : s ∈ c.starts schedule) : s.config.stackCheck = check := by
  refine forall_mem_starts (P := fun s => s.config.stackCheck = check) ?_ ?_ hc schedule s hs
  · intro s kinds h
    rw [requests_eq]
    exact h
  · intro s h
    rw [(recorded_step s).2, h]

/-- **The three stack checks agree up to the first wrap.** From states that differ in the check
only, with requests at the same steps: the run under the warning check goes through the same states
with the same results, and besides reports every wrap of every step, once, each for a push or pull
that the step makes. The run under the fatal check is the same as long as no step wraps; the first
step that does stops it with the wrap, before the access of that push or pull. So where all its
steps succeed, none of them wraps. -/
theorem stack_checks_agree (c : Cpu) (schedule : Schedule) :
    let off := c.withCheck .off
    let warn := c.withCheck .warn
    let fatal := c.withCheck .fatal
    warn.starts schedule = ((off.starts schedule).map fun s => s.withCheck .warn) ∧
    (∀ s ∈ off.starts schedule,
      let o := step.run s
      let w := step.run (s.withCheck .warn)
      w.result = o.result ∧ w.state = o.state.withCheck .warn ∧
        w.events.filter (fun e => e.wrapping?.isNone) = o.events ∧
        o.wrappings = [] ∧ w.wrappings = s.wraps ∧
        ∀ r ∈ s.wraps, ∃ x ∈ o.accesses, r.MadeBy x) ∧
    ((∀ s ∈ off.starts schedule, s.wraps = []) →
      fatal.outcomes schedule =
        (off.outcomes schedule).map (Outcome.onState fun s => s.withCheck .fatal) ∧
      ∀ kinds w ws,
        let s := (off.after schedule).requests kinds
        let o := step.run (s.withCheck .fatal)
        s.wraps = w :: ws →
          fatal.outcomes (schedule ++ [kinds]) = fatal.outcomes schedule ++ [o] ∧
          o.result = .error ⟨w.origin, .stack w.wrap w.sp⟩ ∧
          ∃ x rest, w.MadeBy x ∧ (step.run s).accesses = o.accesses ++ x :: rest) ∧
    ((∀ o ∈ fatal.outcomes schedule, ∃ out, o.result = .ok out) →
      ∀ s ∈ fatal.starts schedule, s.wraps = []) := by
  intro off warn fatal
  have hoff {s : Cpu} (hs : s ∈ off.starts schedule) : s.config.stackCheck = .off :=
    stackCheck_of_mem_starts rfl hs
  refine ⟨?warnStarts, fun s hs => ?warn, fun hwraps => ⟨?same, ?stop⟩, fun hok s hs => ?never⟩
  case warnStarts =>
    exact (starts_map (c := off) (requests_withCheck .warn) fun s hs =>
      (run_step_withCheck_warn (hoff hs)).2.1).1
  case warn =>
    obtain ⟨hresult, hstate, hevents, hquiet, hreported⟩ := run_step_withCheck_warn (hoff hs)
    exact ⟨hresult, hstate, hevents, hquiet, hreported,
      fun r hr => exists_access_of_mem_wraps (hoff hs) hr⟩
  case same =>
    exact outcomes_map (c := off) (requests_withCheck .fatal) fun s hs =>
      run_step_withCheck_fatal (hoff hs) (hwraps s hs)
  case stop =>
    intro kinds w ws s o hw
    have hs : s.config.stackCheck = .off := by
      have hmem : s ∈ off.starts (schedule ++ [kinds]) := by
        rw [starts_append]
        exact List.mem_append_right _ List.mem_cons_self
      exact stackCheck_of_mem_starts rfl hmem
    have hafter : (fatal.after schedule).requests kinds = s.withCheck .fatal := by
      have hstep : ∀ s ∈ off.starts schedule,
          (step.run (s.withCheck .fatal)).state = (step.run s).state.withCheck .fatal := fun s hs =>
        congrArg Outcome.state (run_step_withCheck_fatal (hoff hs) (hwraps s hs))
      rw [requests_withCheck, ← (starts_map (requests_withCheck .fatal) hstep).2]
      rfl
    obtain ⟨hresult, x, rest, hx, haccesses⟩ :=
      stops_of_wraps (c := s.withCheck .fatal) rfl ((wraps_withCheck s _).trans hw)
    rw [withCheck_withCheck_of_eq hs] at haccesses
    refine ⟨?_, hresult, x, rest, hx, haccesses⟩
    rw [outcomes_concat, hafter]
  case never =>
    have hfatal : s.config.stackCheck = .fatal := stackCheck_of_mem_starts (c := fatal) rfl hs
    cases hw : s.wraps with
    | nil => rfl
    | cons w ws =>
      obtain ⟨out, hout⟩ := hok _ (List.mem_map_of_mem hs)
      rw [(stops_of_wraps hfatal hw).1] at hout
      cases hout

/-- `LDX #$01`, `TXS` and a `JSR` whose second push wraps. -/
theorem stack_checks_agree_until_jsr :
    let memory := (Memory.blank .flat).load 0x0300 [0xA2, 0x01, 0x9A, 0x20, 0x00, 0x04]
    let c := { ofMemory memory {} with state := .running, pc := 0x0300 }
    (∀ s ∈ (c.withCheck .off).starts [[], []], s.wraps = []) ∧
      (((c.withCheck .off).after [[], []]).requests []).wraps = [⟨0x0303, .overflow, 0x00⟩] ∧
      ∃ o, (c.withCheck .fatal).outcomes [[], [], []] =
          (c.withCheck .fatal).outcomes [[], []] ++ [o] ∧
        o.result = .error ⟨0x0303, .stack .overflow 0x00⟩ := by
  intro memory c
  have hnone : ∀ s ∈ (c.withCheck .off).starts [[], []], s.wraps = [] := by decide +kernel
  have hwrap : (((c.withCheck .off).after [[], []]).requests []).wraps =
      [⟨0x0303, .overflow, 0x00⟩] := by decide +kernel
  obtain ⟨-, -, hfatal, -⟩ := stack_checks_agree c [[], []]
  obtain ⟨hconcat, hresult, -⟩ := (hfatal hnone).2 [] _ _ hwrap
  exact ⟨hnone, hwrap, _, hconcat, hresult⟩

end Cpu

end NesCore
