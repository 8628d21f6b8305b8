import Mathlib.Data.UInt
import NesCore.Proofs.Ledger

/-!
# Cycle accounting

The cycle counter of a processor says what its steps have reported since the last reset
(`Clocked`), on top of the seven cycles of the reset. A single step accounts for its cycles whether
it succeeds (`cycles_of_step_ok`) or fails (`cycles_of_step_error`); from that follow the sum and
the bounds for a whole run, in which the counter cannot wrap for `2 ^ 60` steps.

Main statement: `cycle_accounting`.
-/

namespace NesCore.Cpu

variable {c : Cpu}

/-! ## Steps -/

/-- An interrupt is entered completely at the start of a step. -/
def CompletesEntry (c : Cpu) : Prop :=
  c.state = .running ∧ ∃ kind, ((serviceInterrupts c.pc).run c).result = .ok (some kind)

theorem toNat_entryCycles (c : Cpu) :
    c.entryCycles.toNat = if c.interruptDue.isSome then 7 else 0 := by
  unfold entryCycles
  split <;> rfl

theorem cycles_acknowledged (c : Cpu) : c.acknowledged.ledger.cycles = c.cycles := by
  rw [ledger_acknowledged]

/-- Only a halted processor makes a step without running, and it reports no cycles. -/
theorem cycles_of_not_running {o : StepOutcome} (h : c.state ≠ .running)
    (ho : (step.run c).result = .ok o) : o.cycles = 0 := by
  cases hs : c.state with
  | running => exact absurd hs h
  | halted =>
    rw [run_step_of_halted hs] at ho
    cases ho
    rfl
  | resetPending | faulted =>
    rw [run_step_of_not_ready (by simp [hs])] at ho
    cases ho

/-- A step that succeeds adds to the counter what it reports: two to seven cycles, and seven for an
interrupt. A halted processor reports none. -/
theorem cycles_of_step_ok {o : StepOutcome} (ho : (step.run c).result = .ok o) :
    (step.run c).state.cycles = c.cycles + o.cycles ∧
    (c.state = .running → ∃ k, (2 ≤ k ∧ k ≤ 7) ∧
      o.cycles.toNat = k + if o.interrupt.isSome then 7 else 0) ∧
    (c.state ≠ .running → o.cycles = 0) := by
  by_cases h : c.state = .running
  · obtain ⟨hinterrupt, -, hledger, k, hcycles, hk⟩ := ledger_of_step_ok h ho
    refine ⟨?_, fun _ => ⟨k.toNat, hk, ?_⟩, fun hn => absurd h hn⟩
    · have hcounter := congrArg Ledger.cycles hledger
      rwa [Ledger.cycles_spend, cycles_acknowledged] at hcounter
    · have hentry := c.toNat_entryCycles
      rw [hcycles, hinterrupt, UInt64.toNat_add, hentry]
      split_ifs <;> omega
  · have hzero := cycles_of_not_running h ho
    refine ⟨?_, fun hr => absurd hr h, fun _ => hzero⟩
    rw [state_step_of_not_running h, hzero, UInt64.add_zero]

/-- A step that fails adds nothing to the counter, unless it has entered an interrupt first, which
adds seven cycles. -/
theorem cycles_of_step_error {e : CpuError} (he : (step.run c).result = .error e) :
    (¬ c.CompletesEntry ∧ (step.run c).entries = [] ∧ (step.run c).state.cycles = c.cycles) ∨
    (c.CompletesEntry ∧ (∃ kind, (step.run c).entries = [kind]) ∧
      (step.run c).state.cycles = c.cycles + 7) := by
  by_cases h : c.state = .running
  · rcases ledger_of_step h with ⟨f, _, hentry, -, hentries, hledger⟩ |
      ⟨_, hentry, -, hentries, hledger⟩ | ⟨_, _, -, hout, -⟩
    · refine .inl ⟨?_, hentries, ?_⟩
      · rintro ⟨-, kind, hkind⟩
        rw [hentry] at hkind
        cases hkind
      · exact (congrArg Ledger.cycles hledger).trans c.cycles_acknowledged
    · have hcycles : (step.run c).state.cycles = c.cycles + c.entryCycles := by
        have hcounter := congrArg Ledger.cycles hledger
        rwa [Ledger.cycles_spend, cycles_acknowledged] at hcounter
      unfold entryCycles at hcycles
      cases hdue : c.interruptDue with
      | none =>
        rw [hdue] at hentry hentries hcycles
        refine .inl ⟨?_, hentries, hcycles.trans (UInt64.add_zero _)⟩
        rintro ⟨-, kind, hkind⟩
        rw [hentry] at hkind
        cases hkind
      | some kind =>
        rw [hdue] at hentry hentries hcycles
        exact .inr ⟨⟨h, kind, hentry⟩, ⟨kind, hentries⟩, hcycles⟩
    · rw [he] at hout
      cases hout
  · refine .inl ⟨fun hc => h hc.1, ?_, by rw [state_step_of_not_running h]⟩
    rw [Outcome.entries, events_step_of_not_running h]
    rfl

/-! ## Runs -/

/-- A processor since its last reset, with the number of steps it has made while running and what
all its steps have reported. Between steps everything may change but the counter. -/
inductive Clocked : Nat → List StepOutcome → Cpu → Prop
  | reset (c : Cpu) : Clocked 0 [] (reset.run c).state
  | host {n : Nat} {outcomes : List StepOutcome} {s t : Cpu} (h : Clocked n outcomes s)
    (ht : t.cycles = s.cycles) : Clocked n outcomes t
  | step {n : Nat} {outcomes : List StepOutcome} {s : Cpu} {o : StepOutcome}
    (h : Clocked n outcomes s) (ho : (step.run s).result = .ok o) :
    Clocked (if s.state = .running then n + 1 else n) (outcomes ++ [o]) (step.run s).state

/-- The cycles reported by the steps of a run. -/
def reportedCycles (outcomes : List StepOutcome) : Nat :=
  (outcomes.map fun o => o.cycles.toNat).sum

theorem reportedCycles_concat (outcomes : List StepOutcome) (o : StepOutcome) :
    reportedCycles (outcomes ++ [o]) = reportedCycles outcomes + o.cycles.toNat := by
  simp [reportedCycles]

theorem sum_cycles (outcomes : List StepOutcome) :
    (outcomes.map StepOutcome.cycles).sum = UInt64.ofNat (reportedCycles outcomes) := by
  induction outcomes with
  | nil => rfl
  | cons o rest ih => simp [reportedCycles, ih]

/-- The counter is seven and what the steps have reported, and a running step has reported between
two and fourteen cycles. -/
theorem Clocked.cycles {n : Nat} {outcomes : List StepOutcome} {s : Cpu}
    (h : Clocked n outcomes s) :
    s.cycles = 7 + (outcomes.map StepOutcome.cycles).sum ∧
      2 * n ≤ reportedCycles outcomes ∧ reportedCycles outcomes ≤ 14 * n := by
  induction h with
  | reset c => exact ⟨congrArg Ledger.cycles (ledger_reset c), Nat.le_refl 0, Nat.le_refl 0⟩
  | host h ht ih => exact ⟨ht.trans ih.1, ih.2⟩
  | @step n outcomes s o h ho ih =>
    obtain ⟨hcycles, hlow, hhigh⟩ := ih
    obtain ⟨hcounter, hrunning, hidle⟩ := cycles_of_step_ok ho
    rw [reportedCycles_concat]
    refine ⟨?_, ?_⟩
    · rw [hcounter, hcycles, UInt64.add_assoc]
      simp
    · split_ifs with hs
      · obtain ⟨k, hk, htotal⟩ := hrunning hs
        split_ifs at htotal <;> omega
      · rw [hidle hs]
        exact ⟨hlow, hhigh⟩

/-- **Cycle accounting.** However a processor got to where it is since its last reset, its counter
is seven and the sum of what its steps have reported. A step made while running reports two to seven
cycles, and seven more exactly if it reports an interrupt; a step of a halted processor reports
none. A step that fails adds nothing, or seven cycles exactly if it has entered an interrupt. In
fewer than `2 ^ 60` running steps the counter does not wrap, and lies within the bounds that the
steps give. -/
theorem cycle_accounting {n : Nat} {outcomes : List StepOutcome} {s : Cpu}
    (h : Clocked n outcomes s) :
    s.cycles = 7 + (outcomes.map StepOutcome.cycles).sum ∧
    (∀ o, (step.run s).result = .ok o →
      (s.state = .running → ∃ k, (2 ≤ k ∧ k ≤ 7) ∧
        o.cycles.toNat = k + if o.interrupt.isSome then 7 else 0) ∧
      (s.state = .halted → o.cycles = 0)) ∧
    (∀ e, (step.run s).result = .error e →
      (¬ s.CompletesEntry ∧ (step.run s).entries = [] ∧
        (step.run s).state.cycles = s.cycles) ∨
      (s.CompletesEntry ∧ (∃ kind, (step.run s).entries = [kind]) ∧
        (step.run s).state.cycles = s.cycles + 7)) ∧
    (n ≤ 2 ^ 60 →
      s.cycles.toNat = 7 + (outcomes.map fun o => o.cycles.toNat).sum ∧
      7 + 2 * n ≤ s.cycles.toNat ∧ s.cycles.toNat ≤ 7 + 14 * n) := by
  obtain ⟨hcycles, hlow, hhigh⟩ := h.cycles
  refine ⟨hcycles, fun o ho => ?_, fun e he => cycles_of_step_error he, fun hn => ?_⟩
  · obtain ⟨-, hrunning, hidle⟩ := cycles_of_step_ok ho
    exact ⟨hrunning, fun hs => hidle (by rw [hs]; decide)⟩
  · have hexact : s.cycles.toNat = 7 + reportedCycles outcomes := by
      simp only [hcycles, sum_cycles, UInt64.toNat_add, UInt64.toNat_ofNat', UInt64.reduceToNat]
      omega
    refine ⟨hexact, ?_, ?_⟩ <;> omega

/-- An NMI after the reset, whose handler starts with `NOP`: seven cycles, then seven and two. -/
theorem cycle_accounting_of_nmi :
    let memory := ((Memory.blank .flat).load 0x0300 [0xEA]).load 0xFFFA [0x00, 0x03]
    let s := (reset.run (ofMemory memory {})).state.triggerNmi
    let o : StepOutcome := ⟨0x0300, 0xEA, 9, false, some .nmi⟩
    Clocked 1 [o] (step.run s).state ∧ 1 ≤ 2 ^ 60 ∧ (step.run s).state.cycles.toNat = 16 := by
  intro memory s o
  have hrunning : s.state = .running := (reset_succeeds (ofMemory memory {})).2
  have ho : (step.run s).result = .ok o := by decide +kernel
  have hstart : Clocked 0 [] s := .host (.reset (ofMemory memory {})) rfl
  have h := hstart.step ho
  rw [if_pos hrunning] at h
  have hn : 1 ≤ 2 ^ 60 := by decide
  obtain ⟨-, -, -, hexact⟩ := cycle_accounting h
  exact ⟨h, hn, (hexact hn).1⟩

end NesCore.Cpu
