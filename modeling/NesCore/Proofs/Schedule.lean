import NesCore.Cpu.Step

/-!
# Scheduled runs

A schedule lists the interrupt requests that come before each step of a run. A run goes on after an
error or a halt; the steps in those states are part of it. `starts` are the states in which its
steps start, `outcomes` what they come to. Two lifts carry a fact about one step over all runs:
`forall_mem_starts` for an invariant, `outcomes_map` for a change of the processor that steps do
not notice.
-/

namespace NesCore

/-- The outcome with another view of the state it leaves. -/
def Outcome.onState {σ τ ε α : Type} (f : σ → τ) (o : Outcome σ ε α) : Outcome τ ε α :=
  ⟨o.events, o.result, f o.state⟩

theorem Outcome.eq_onState {σ τ ε α : Type} {f : σ → τ} {o : Outcome σ ε α} {p : Outcome τ ε α}
    (hevents : p.events = o.events) (hresult : p.result = o.result)
    (hstate : p.state = f o.state) : p = o.onState f := by
  unfold onState
  rw [← hevents, ← hresult, ← hstate]

/-- For each step the interrupts requested before it. -/
abbrev Schedule := List (List Interrupt)

namespace Cpu

variable {c : Cpu} {f : Cpu → Cpu}

/-- The processor with an interrupt requested. -/
def request (c : Cpu) : Interrupt → Cpu
  | .nmi => c.triggerNmi
  | .irq => c.triggerIrq

/-- The processor with interrupts requested, one after the other. -/
def requests (c : Cpu) (kinds : List Interrupt) : Cpu := kinds.foldl request c

/-- The processor after a scheduled run. -/
def after (c : Cpu) (schedule : Schedule) : Cpu :=
  schedule.foldl (fun s kinds => (step.run (s.requests kinds)).state) c

/-- The states in which the steps of a scheduled run start. -/
def starts (c : Cpu) : Schedule → List Cpu
  | [] => []
  | kinds :: rest => c.requests kinds :: (step.run (c.requests kinds)).state.starts rest

/-- What the steps of a scheduled run come to. -/
def outcomes (c : Cpu) (schedule : Schedule) : List (Outcome Cpu CpuError StepOutcome) :=
  (c.starts schedule).map step.run

/-- Requests only leave their marks, in any order and number. -/
theorem requests_eq (c : Cpu) (kinds : List Interrupt) :
    c.requests kinds =
      { c with
        nmiPending := c.nmiPending || kinds.contains .nmi
        irqPending := c.irqPending || kinds.contains .irq } := by
  induction kinds generalizing c with
  | nil => simp [requests]
  | cons kind rest ih =>
    show (c.request kind).requests rest = _
    rw [ih]
    cases kind <;> simp [request, triggerNmi, triggerIrq]

theorem after_concat (c : Cpu) (before : Schedule) (kinds : List Interrupt) :
    c.after (before ++ [kinds]) = (step.run ((c.after before).requests kinds)).state :=
  List.foldl_append

theorem starts_append (c : Cpu) (before rest : Schedule) :
    c.starts (before ++ rest) = c.starts before ++ (c.after before).starts rest := by
  induction before generalizing c with
  | nil => rfl
  | cons kinds before ih => exact congrArg (_ :: ·) (ih _)

/-- A longer run makes one more step. -/
theorem outcomes_concat (c : Cpu) (before : Schedule) (kinds : List Interrupt) :
    c.outcomes (before ++ [kinds]) =
      c.outcomes before ++ [step.run ((c.after before).requests kinds)] := by
  unfold outcomes
  rw [starts_append, List.map_append]
  rfl

/-! ## Invariants -/

/-- What requests and steps keep holds at the start of every step. -/
theorem forall_mem_starts {P : Cpu → Prop} (hrequests : ∀ s kinds, P s → P (s.requests kinds))
    (hstep : ∀ s, P s → P (step.run s).state) (h : P c) (schedule : Schedule) :
    ∀ s ∈ c.starts schedule, P s := by
  induction schedule generalizing c with
  | nil => exact List.forall_mem_nil P
  | cons kinds rest ih =>
    have hstart : P (c.requests kinds) := hrequests c kinds h
    exact List.forall_mem_cons.2 ⟨hstart, ih (hstep _ hstart)⟩

/-! ## Runs in lockstep -/

section Lockstep

variable (hrequests : ∀ s kinds, f (s.requests kinds) = (f s).requests kinds)

include hrequests

/-- If the steps of a run carry a change along, the changed processor goes through the changed
states. -/
theorem starts_map {schedule : Schedule}
    (h : ∀ s ∈ c.starts schedule, (step.run (f s)).state = f (step.run s).state) :
    (f c).starts schedule = (c.starts schedule).map f ∧
      (f c).after schedule = f (c.after schedule) := by
  induction schedule generalizing c with
  | nil => exact ⟨rfl, rfl⟩
  | cons kinds rest ih =>
    obtain ⟨hfirst, hrest⟩ := List.forall_mem_cons.1 h
    obtain ⟨hstarts, hafter⟩ := ih hrest
    rw [hrequests] at hfirst
    rw [← hfirst] at hstarts hafter
    refine ⟨?_, hafter⟩
    show (f c).requests kinds :: _ = f (c.requests kinds) :: _
    rw [hrequests, hstarts]

/-- If moreover the results and events stay, so do those of the run. -/
theorem outcomes_map {schedule : Schedule}
    (h : ∀ s ∈ c.starts schedule, step.run (f s) = (step.run s).onState f) :
    (f c).outcomes schedule = (c.outcomes schedule).map (Outcome.onState f) := by
  obtain ⟨hstarts, -⟩ := starts_map hrequests fun s hs => congrArg Outcome.state (h s hs)
  unfold outcomes
  rw [hstarts, List.map_map, List.map_map]
  exact List.map_congr_left h

end Lockstep

end Cpu

end NesCore
