import NesCore.Proofs.CommandLine.Session
import NesCore.Proofs.Invariant

/-!
# The run of a session, step by step

The host of a session watches: the processor goes from step to step as if it were alone
(`Cpu.stepped`). The run ends with the first step that fails, halts or is the last that was asked
for, and `Ended` says what is left by then. The steps up to that one are those that the run attempts
(`Ended.attempts_iff`), and a limit is never passed (`below_of_going`).
-/

namespace NesCore

namespace Cpu

/-- The processor after a number of steps. -/
def stepped (c : Cpu) : Nat → Cpu
  | 0 => c
  | k + 1 => (step.run (c.stepped k)).state

/-- The next step succeeds and does not halt. -/
def Passes (c : Cpu) : Prop := ∃ out, (step.run c).result = .ok out ∧ out.halted = false

/-- A run that may be limited to a number of steps attempts this step, counted from zero. -/
def Attempts (c : Cpu) (limit : Option Nat) (k : Nat) : Prop :=
  (∀ i < k, (c.stepped i).Passes) ∧ ∀ n ∈ limit, k < n

theorem stepped_step (c : Cpu) (k : Nat) : (step.run c).state.stepped k = c.stepped (k + 1) := by
  induction k with
  | zero => rfl
  | succ k ih =>
    show (step.run ((step.run c).state.stepped k)).state = (step.run (c.stepped (k + 1))).state
    rw [ih]

/-- What every step that passes keeps, the steps before the first one that does not keep. -/
theorem stepped_of_passes {P : Cpu → Prop} (hstep : ∀ d, P d → d.Passes → P (step.run d).state)
    {c : Cpu} (h : P c) {k : Nat} (hpasses : ∀ i < k, (c.stepped i).Passes) : P (c.stepped k) := by
  induction k with
  | zero => exact h
  | succ k ih =>
    have hbefore : P (c.stepped k) := ih fun i hi => hpasses i (Nat.lt_succ_of_lt hi)
    exact hstep _ hbefore (hpasses k (Nat.lt_succ_self k))

end Cpu

namespace CommandLine

open Cpu NesCore.Action

variable {options : Options} {s : Hosted Progress} {k : Nat}
  {o : Outcome (Hosted Progress) CpuError (Option StopReason)}

/-- The line that traces the instruction that comes next. -/
def lineOf (options : Options) (c : Cpu) : String :=
  String.ofList (TraceLine.line c.memory c.toRegisters c.cycles options.colour)

/-! ## One step -/

/-- A step before the host fails, halts, is the last one that was asked for, or is followed by
another one, which is traced on demand. -/
theorem advance_cases (options : Options) (s : Hosted Progress) :
    let a := (advance (host options)).run s
    let c := (step.run s.cpu).state
    let counted : Hosted Progress := ⟨⟨s.host.steps + 1, s.host.pending⟩, c⟩
    (∃ e, (step.run s.cpu).result = .error e ∧ a.result = .error e ∧ a.state = ⟨s.host, c⟩) ∨
    (∃ out, (step.run s.cpu).result = .ok out ∧ out.halted = true ∧
      a.result = .ok (some .halted) ∧ a.state = counted) ∨
    (s.cpu.Passes ∧ (∃ n ∈ options.maxSteps, n ≤ s.host.steps + 1) ∧
      a.result = .ok (some .cancelled) ∧ a.state = counted) ∨
    (s.cpu.Passes ∧ (∀ n ∈ options.maxSteps, s.host.steps + 1 < n) ∧ a.result = .ok none ∧
      a.state = ⟨⟨s.host.steps + 1,
        if options.trace then lineOf options c :: s.host.pending else s.host.pending⟩, c⟩) := by
  intro a c counted
  rcases hstep : step.run s.cpu with ⟨events, e | out, d⟩
  · have ha : a = _ := run_advance_of_error hstep
    have hc : c = d := congrArg Outcome.state hstep
    rw [ha, hc]
    exact .inl ⟨e, rfl, rfl, rfl⟩
  have ha : a = _ := run_advance_of_ok hstep
  have hc : c = d := congrArg Outcome.state hstep
  let goOn := options.maxSteps.all fun n => s.host.steps + 1 < n
  have hgoOn : goOn = true ↔ ∀ n ∈ options.maxSteps, s.host.steps + 1 < n := by
    unfold goOn
    cases options.maxSteps <;> simp
  have hhost : host options s.host (d.tick out) d.memory =
      ⟨⟨s.host.steps + 1, if options.trace && goOn && !out.halted
          then lineOf options d :: s.host.pending else s.host.pending⟩, d.memory, goOn⟩ := rfl
  rw [ha, hhost]
  simp only [counted, hc]
  cases hh : out.halted with
  | true => exact .inr (.inl ⟨out, rfl, hh, rfl, by simp⟩)
  | false =>
    have hpass : s.cpu.Passes := ⟨out, by rw [hstep], hh⟩
    cases hgo : goOn with
    | true => exact .inr (.inr (.inr ⟨hpass, hgoOn.1 hgo, rfl, by simp⟩))
    | false =>
      have hlast : ¬ ∀ n ∈ options.maxSteps, s.host.steps + 1 < n := by
        rw [← hgoOn, hgo]
        decide
      simp only [not_forall, Nat.not_lt, exists_prop] at hlast
      exact .inr (.inr (.inl ⟨hpass, hlast, rfl, by simp⟩))

/-- A run goes on after a step that passes and was not the last one that was asked for. -/
theorem advance_of_going (hgo : ((advance (host options)).run s).result = .ok none) :
    s.cpu.Passes ∧ (∀ n ∈ options.maxSteps, s.host.steps + 1 < n) ∧
      ((advance (host options)).run s).state = ⟨⟨s.host.steps + 1,
        if options.trace then lineOf options (step.run s.cpu).state :: s.host.pending
        else s.host.pending⟩, (step.run s.cpu).state⟩ := by
  rcases advance_cases options s with ⟨e, -, hresult, -⟩ | ⟨out, -, -, hresult, -⟩ |
    ⟨-, -, hresult, -⟩ | ⟨hpass, hmore, -, hstate⟩
  · rw [hresult] at hgo
    cases hgo
  · rw [hresult] at hgo
    cases hgo
  · rw [hresult] at hgo
    cases hgo
  · exact ⟨hpass, hmore, hstate⟩

/-! ## The end of a run -/

/-- A run has ended with the step after `k` that passed. -/
structure Ended (options : Options) (s : Hosted Progress) (k : Nat)
    (o : Outcome (Hosted Progress) CpuError (Option StopReason)) : Prop where
  passes : ∀ i < k, (s.cpu.stepped i).Passes
  below : ∀ n ∈ options.maxSteps, s.host.steps + k < n
  cpu : o.state.cpu = s.cpu.stepped (k + 1)
  /-- On demand every step after the first one has been traced before it was made. -/
  pending : o.state.host.pending.reverse = s.host.pending.reverse ++
    if options.trace then (List.range k).map fun i => lineOf options (s.cpu.stepped (i + 1)) else []
  last : match o.result with
    | .error e => (step.run (s.cpu.stepped k)).result = .error e
    | .ok (some .halted) =>
      ∃ out, (step.run (s.cpu.stepped k)).result = .ok out ∧ out.halted = true
    | .ok (some .cancelled) =>
      (s.cpu.stepped k).Passes ∧ options.maxSteps = some (s.host.steps + k + 1) ∧
        o.state.host.steps = s.host.steps + k + 1
    | .ok none => False

namespace Ended

theorem zero (hbelow : ∀ n ∈ options.maxSteps, s.host.steps < n)
    (hstop : ((advance (host options)).run s).result ≠ .ok none) :
    Ended options s 0 ((advance (host options)).run s) := by
  rcases advance_cases options s with ⟨e, hstep, hresult, hstate⟩ |
    ⟨out, hstep, hh, hresult, hstate⟩ | ⟨hpass, ⟨n, hn, hle⟩, hresult, hstate⟩ |
    ⟨-, -, hresult, -⟩
  · exact
      { passes := nofun
        below := hbelow
        cpu := by rw [hstate]; rfl
        pending := by rw [hstate]; simp
        last := by rw [hresult]; exact hstep }
  · exact
      { passes := nofun
        below := hbelow
        cpu := by rw [hstate]; rfl
        pending := by rw [hstate]; simp
        last := by rw [hresult]; exact ⟨out, hstep, hh⟩ }
  · have hlast : n = s.host.steps + 0 + 1 := by
      have := hbelow n hn
      omega
    exact
      { passes := nofun
        below := hbelow
        cpu := by rw [hstate]; rfl
        pending := by rw [hstate]; simp
        last := by rw [hresult, hstate]; exact ⟨hpass, hlast ▸ hn, rfl⟩ }
  · exact absurd hresult hstop

/-- A step that passes comes before the end of the run that it starts. -/
theorem succ (hgo : ((advance (host options)).run s).result = .ok none)
    (h : Ended options ((advance (host options)).run s).state k o) (events : List Event) :
    Ended options s (k + 1) ⟨events ++ o.events, o.result, o.state⟩ := by
  obtain ⟨hpass, -, hstate⟩ := advance_of_going hgo
  rw [hstate] at h
  have hstepped (i : Nat) : (step.run s.cpu).state.stepped i = s.cpu.stepped (i + 1) :=
    stepped_step s.cpu i
  have hcount : s.host.steps + 1 + k = s.host.steps + (k + 1) := by omega
  refine
    { passes := fun i hi => ?passes
      below := fun n hn => hcount ▸ h.below n hn
      cpu := h.cpu.trans (hstepped (k + 1))
      pending := h.pending.trans ?pending
      last := ?last }
  case passes =>
    cases i with
    | zero => exact hpass
    | succ i => exact hstepped i ▸ h.passes i (Nat.lt_of_succ_lt_succ hi)
  case pending =>
    simp only [hstepped]
    cases options.trace with
    | false => rfl
    | true =>
      rw [if_pos rfl, if_pos rfl, if_pos rfl, List.range_succ_eq_map, List.map_cons, List.map_map,
        List.reverse_cons, List.append_assoc]
      rfl
  case last =>
    have hlast := h.last
    simp only [hstepped, hcount] at hlast
    exact hlast

/-- The steps that a run attempts are those up to its last one. -/
theorem attempts_iff (h : Ended options s k o) (hzero : s.host.steps = 0) {i : Nat} :
    s.cpu.Attempts options.maxSteps i ↔ i ≤ k := by
  constructor
  · rintro ⟨hpasses, hbelow⟩
    by_contra hlt
    obtain ⟨out, hok, hh⟩ := hpasses k (by omega)
    have hlast := h.last
    rcases hr : o.result with e | _ | _ | _
    · rw [hr] at hlast
      rw [hlast] at hok
      cases hok
    · rw [hr] at hlast
      exact hlast
    · rw [hr] at hlast
      obtain ⟨out', hok', hh'⟩ := hlast
      rw [hok] at hok'
      cases hok'
      rw [hh] at hh'
      cases hh'
    · rw [hr] at hlast
      have := hbelow _ hlast.2.1
      omega
  · intro hle
    refine ⟨fun j hj => h.passes j (by omega), fun n hn => ?_⟩
    have := h.below n hn
    omega

end Ended

/-- A session's run that ends has an end, and its steps are made from one processor after the
other. -/
theorem exists_ended (n : Nat) (hbelow : ∀ n ∈ options.maxSteps, s.host.steps < n)
    (hend : ((runFor (host options) n).run s).result ≠ .ok none) :
    ∃ k, Ended options s k ((runFor (host options) n).run s) ∧
      attempts (host options) n s = (List.range (k + 1)).map s.cpu.stepped := by
  induction n generalizing s with
  | zero => exact absurd rfl hend
  | succ n ih =>
    by_cases hgo : ((advance (host options)).run s).result = .ok none
    · obtain ⟨-, hmore, hstate⟩ := advance_of_going hgo
      rw [run_runFor_of_go hgo] at hend ⊢
      rw [attempts_of_go hgo]
      obtain ⟨k, hended, htries⟩ := ih (by rw [hstate]; exact hmore) hend
      refine ⟨k + 1, hended.succ hgo _, ?_⟩
      rw [htries, hstate, List.range_succ_eq_map (n := k + 1), List.map_cons, List.map_map]
      exact congrArg (_ :: ·) (List.map_congr_left fun i _ => stepped_step s.cpu i)
    · rw [run_runFor_of_stop hgo, attempts_of_stop hgo]
      exact ⟨0, .zero hbelow hgo, rfl⟩

/-- A run that goes on has not come to the limit. -/
theorem below_of_going (n : Nat) (hbelow : ∀ n ∈ options.maxSteps, s.host.steps < n)
    (hgoing : ((runFor (host options) n).run s).result = .ok none) :
    ∀ limit ∈ options.maxSteps, s.host.steps + n < limit := by
  induction n generalizing s with
  | zero => exact hbelow
  | succ n ih =>
    by_cases hgo : ((advance (host options)).run s).result = .ok none
    · obtain ⟨-, hmore, hstate⟩ := advance_of_going hgo
      rw [run_runFor_of_go hgo] at hgoing
      have hrest := ih (by rw [hstate]; exact hmore) hgoing
      rw [hstate] at hrest
      intro limit hlimit
      have : s.host.steps + 1 + n < limit := hrest limit hlimit
      omega
    · rw [run_runFor_of_stop hgo] at hgoing
      exact absurd hgoing hgo

end CommandLine

end NesCore
