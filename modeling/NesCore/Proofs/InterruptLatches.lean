import NesCore.Proofs.Ledger
import NesCore.Proofs.Schedule

/-!
# Interrupt latches

A request waits in its latch for the next step. The step answers an NMI; it answers an IRQ or drops
it, unless an NMI came first, behind which the IRQ waits for one step more. What a single step does
to the latches is `latches_of_step`. Along a run that goes on (`RunsOn`) the latches at the start of
a step are therefore known from the requests since the step before and from what that step found.

Main statement: `interrupt_latches`.
-/

namespace NesCore.Cpu

variable {c : Cpu} {schedule : Schedule}

/-! ## Steps -/

theorem interruptDue_eq_nmi_iff : c.interruptDue = some .nmi ↔ c.nmiPending = true := by
  unfold interruptDue
  split_ifs <;> simp_all

theorem interruptDue_eq_irq_iff :
    c.interruptDue = some .irq ↔
      c.irqPending = true ∧ c.nmiPending = false ∧ c.status.interruptDisable = false := by
  unfold interruptDue
  split_ifs <;> simp_all

/-- A step that succeeds enters and reports the interrupt that is due. It leaves no NMI waiting, and
an IRQ only if there were both. -/
theorem latches_of_step {out : StepOutcome} (h : c.state = .running)
    (ho : (step.run c).result = .ok out) :
    out.interrupt = c.interruptDue ∧ (step.run c).entries = c.interruptDue.toList ∧
      (step.run c).state.nmiPending = false ∧
      (step.run c).state.irqPending = (c.irqPending && c.nmiPending) := by
  obtain ⟨hinterrupt, hentries, hledger, -⟩ := ledger_of_step_ok h ho
  rw [ledger_acknowledged] at hledger
  exact ⟨hinterrupt, hentries, congrArg Ledger.nmiPending hledger,
    congrArg Ledger.irqPending hledger⟩

/-! ## Runs that go on -/

/-- The processor runs, and every step of the scheduled run succeeds and leaves it running. -/
def RunsOn (c : Cpu) (schedule : Schedule) : Prop :=
  c.state = .running ∧
    ∀ o ∈ c.outcomes schedule, (∃ out, o.result = .ok out) ∧ o.state.state = .running

instance {ε α : Type} (r : Except ε α) : Decidable (∃ a, r = .ok a) :=
  match r with
  | .ok a => isTrue ⟨a, rfl⟩
  | .error _ => isFalse nofun

instance (c : Cpu) (schedule : Schedule) : Decidable (c.RunsOn schedule) :=
  inferInstanceAs (Decidable (_ ∧ ∀ o ∈ _, _))

namespace RunsOn

variable {kinds : List Interrupt} {before rest : Schedule}

/-- The first step starts running and succeeds, and the run goes on behind it. -/
theorem cases_cons (h : c.RunsOn (kinds :: rest)) :
    (c.requests kinds).state = .running ∧
      (∃ out, (step.run (c.requests kinds)).result = .ok out) ∧
      (step.run (c.requests kinds)).state.RunsOn rest := by
  obtain ⟨⟨hok, hstate⟩, hrest⟩ := List.forall_mem_cons.1 h.2
  refine ⟨?_, hok, hstate, hrest⟩
  rw [requests_eq]
  exact h.1

theorem step_ok (h : c.RunsOn (before ++ kinds :: rest)) :
    ((c.after before).requests kinds).state = .running ∧
      ∃ out, (step.run ((c.after before).requests kinds)).result = .ok out := by
  induction before generalizing c with
  | nil => exact ⟨h.cases_cons.1, h.cases_cons.2.1⟩
  | cons first before ih => exact ih h.cases_cons.2.2

end RunsOn

/-! ## Latches along a run -/

theorem nmiPending_requests_iff (hn : c.nmiPending = false) (kinds : List Interrupt) :
    (c.requests kinds).nmiPending = true ↔ .nmi ∈ kinds := by
  rw [requests_eq]
  simp [hn]

theorem irqPending_requests_iff (c : Cpu) (kinds : List Interrupt) :
    (c.requests kinds).irqPending = true ↔ .irq ∈ kinds ∨ c.irqPending = true := by
  rw [requests_eq]
  simp [or_comm]

/-- At a step of a run that goes on from a reset no NMI has been left over, and an IRQ has exactly
if the step before found both. -/
theorem latches_after {kinds : List Interrupt} {before rest : Schedule} (c₀ : Cpu)
    (h : (reset.run c₀).state.RunsOn (before ++ kinds :: rest)) :
    let c := (reset.run c₀).state
    (c.after before).nmiPending = false ∧
      ((c.after before).irqPending = true ↔ ∃ earlier last, before = earlier ++ [last] ∧
        ((c.after earlier).requests last).nmiPending = true ∧
        ((c.after earlier).requests last).irqPending = true) := by
  intro c
  rcases List.eq_nil_or_concat before with rfl | ⟨earlier, last, hbefore⟩
  · have hledger := ledger_reset c₀
    have hirq : (c.after []).irqPending = false := congrArg Ledger.irqPending hledger
    refine ⟨congrArg Ledger.nmiPending hledger, ?_⟩
    rw [hirq]
    refine iff_of_false (by decide) ?_
    rintro ⟨earlier, last, hnil, -⟩
    simp at hnil
  · rw [List.concat_eq_append] at hbefore
    subst hbefore
    rw [List.append_assoc] at h
    obtain ⟨hs, out, hout⟩ := h.step_ok
    obtain ⟨-, -, hnmi, hirq⟩ := latches_of_step hs hout
    rw [after_concat]
    refine ⟨hnmi, ?_⟩
    rw [hirq, Bool.and_eq_true]
    constructor
    · rintro ⟨hi, hn⟩
      exact ⟨earlier, last, rfl, hn, hi⟩
    · rintro ⟨earlier', last', heq, hn, hi⟩
      obtain ⟨hearlier, hlast⟩ := List.append_inj' heq rfl
      rw [hearlier, List.singleton_inj.1 hlast]
      exact ⟨hi, hn⟩

theorem count_nmi_interruptDue_le (hn : c.nmiPending = false) (kinds : List Interrupt) :
    (c.requests kinds).interruptDue.toList.count .nmi ≤ kinds.count .nmi := by
  by_cases hdue : (c.requests kinds).interruptDue = some .nmi
  · rw [hdue]
    have hmem := (nmiPending_requests_iff hn kinds).1 (interruptDue_eq_nmi_iff.1 hdue)
    exact List.count_pos_iff.2 hmem
  · have hzero : (c.requests kinds).interruptDue.toList.count .nmi = 0 := by
      rw [List.count_eq_zero, Option.mem_toList]
      exact hdue
    rw [hzero]
    exact Nat.zero_le _

/-- A run that goes on enters at most as many NMIs as are requested. -/
theorem RunsOn.count_nmi_le (h : c.RunsOn schedule) (hn : c.nmiPending = false) :
    ((c.outcomes schedule).flatMap Outcome.entries).count .nmi ≤ schedule.flatten.count .nmi := by
  induction schedule generalizing c with
  | nil => exact Nat.le_refl 0
  | cons kinds rest ih =>
    obtain ⟨hs, ⟨out, hout⟩, hrest⟩ := h.cases_cons
    obtain ⟨-, hentries, hnmi, -⟩ := latches_of_step hs hout
    have hfirst := count_nmi_interruptDue_le hn kinds
    rw [← hentries] at hfirst
    show ((step.run (c.requests kinds)).entries ++ _).count .nmi ≤ _
    rw [List.count_append, List.flatten_cons, List.count_append]
    exact Nat.add_le_add hfirst (ih hrest hnmi)

/-- **The interrupt latches.** Take any interleaving of requests and steps after a reset, in which
the steps succeed and the processor runs on. A step reports an NMI exactly if one was requested
since the step before, once or more often. It reports an IRQ exactly if one waits, no NMI does, and
interrupts are enabled as it starts. An IRQ waits exactly if one was requested since the step
before, or if that step found both; whatever else waited, the step has used it up. What a step
reports is what it enters, so that it enters one interrupt at most, and no run enters more NMIs than
were requested. -/
theorem interrupt_latches (c₀ : Cpu) (schedule : Schedule)
    (h : (reset.run c₀).state.RunsOn schedule) :
    let c := (reset.run c₀).state
    (∀ before kinds rest, schedule = before ++ kinds :: rest →
      let s := (c.after before).requests kinds
      let t := (step.run s).state
      ∃ out, (step.run s).result = .ok out ∧
        (out.interrupt = some .nmi ↔ .nmi ∈ kinds) ∧
        (out.interrupt = some .irq ↔
          s.irqPending = true ∧ s.nmiPending = false ∧ s.status.interruptDisable = false) ∧
        (s.nmiPending = true ↔ .nmi ∈ kinds) ∧
        (s.irqPending = true ↔ .irq ∈ kinds ∨ ∃ earlier last, before = earlier ++ [last] ∧
          ((c.after earlier).requests last).nmiPending = true ∧
          ((c.after earlier).requests last).irqPending = true) ∧
        t.nmiPending = false ∧
        (t.irqPending = true ↔ s.irqPending = true ∧ s.nmiPending = true) ∧
        (step.run s).entries = out.interrupt.toList ∧
        (.irq ∈ (step.run s).entries → s.status.interruptDisable = false)) ∧
    ((c.outcomes schedule).flatMap Outcome.entries).count .nmi ≤ schedule.flatten.count .nmi := by
  intro c
  refine ⟨?_, h.count_nmi_le (congrArg Ledger.nmiPending (ledger_reset c₀))⟩
  rintro before kinds rest rfl s t
  obtain ⟨hs, out, hout⟩ := h.step_ok
  obtain ⟨hinterrupt, hentries, hnmi, hirq⟩ := latches_of_step hs hout
  obtain ⟨hleft, hcarried⟩ := latches_after c₀ h
  have hpending : s.nmiPending = true ↔ .nmi ∈ kinds := nmiPending_requests_iff hleft kinds
  refine ⟨out, hout, ?_, ?_, hpending, ?_, hnmi, ?_, ?_, ?_⟩
  · rw [hinterrupt, interruptDue_eq_nmi_iff]
    exact hpending
  · rw [hinterrupt, interruptDue_eq_irq_iff]
  · rw [irqPending_requests_iff, hcarried]
  · rw [hirq, Bool.and_eq_true]
  · rw [hentries, hinterrupt]
  · intro hmem
    rw [hentries, Option.mem_toList] at hmem
    exact (interruptDue_eq_irq_iff.1 hmem).2.2

/-- An IRQ requested together with two NMIs, of which the handler starts with `CLI`: the step after
the NMI enters the IRQ. -/
theorem interrupt_latches_of_both :
    let memory := (((Memory.blank .flat).load 0x0300 [0x58]).load 0x0310 [0x58, 0xEA]).load
      0xFFFA [0x10, 0x03, 0x00, 0x03, 0x11, 0x03]
    let c := ofMemory memory {}
    let both : List Interrupt := [.nmi, .irq, .nmi]
    (reset.run c).state.RunsOn [[], both, []] ∧
      ∃ out, (step.run (((reset.run c).state.after [[], both]).requests [])).result = .ok out ∧
        out.interrupt = some .irq := by
  intro memory c both
  have h : (reset.run c).state.RunsOn [[], both, []] := by decide +kernel
  obtain ⟨out, hout, -, hirq, hnmi, hwaits, -⟩ :=
    (interrupt_latches c [[], both, []] h).1 [[], both] [] [] rfl
  refine ⟨h, out, hout, hirq.2 ⟨hwaits.2 (.inr ⟨[[]], both, rfl, ?_⟩), ?_, ?_⟩⟩
  · decide +kernel
  · exact Bool.eq_false_iff.2 fun hn => List.not_mem_nil (hnmi.1 hn)
  · decide +kernel

end NesCore.Cpu
