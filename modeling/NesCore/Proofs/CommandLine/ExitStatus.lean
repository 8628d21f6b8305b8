import NesCore.Proofs.CommandLine.Arguments
import NesCore.Proofs.CommandLine.Run
import NesCore.Proofs.ConsoleReset
import NesCore.Proofs.Lifecycle

/-!
# Exit codes

A program whose dump cannot be loaded exits with 1. Otherwise the last step that the run attempts
decides (`exits_of_loads`): 2 for an illegal opcode, 3 for any other error, 0 for a halt or for the
last step of those that were asked for. A session never checks the stack fatally, so that 3 is left
to the bus, which needs the fault policy (`policy_of_failsFirst`).

Main statement: `exit_status`.
-/

namespace NesCore

/-! ## How a run ends -/

namespace Cpu

variable {c : Cpu} {limit : Option Nat} {e : CpuError} {out : StepOutcome} {j k n : Nat}

/-- The first step that does not pass is one that the run attempts, and fails with this error. -/
def FailsFirst (c : Cpu) (limit : Option Nat) (e : CpuError) : Prop :=
  ∃ k, c.Attempts limit k ∧ (step.run (c.stepped k)).result = .error e

/-- The first step that does not pass is one that the run attempts, and halts on a `BRK`. -/
def HaltsFirst (c : Cpu) (limit : Option Nat) : Prop :=
  ∃ k out, c.Attempts limit k ∧ (step.run (c.stepped k)).result = .ok out ∧
    out.opcode = 0x00 ∧ out.halted = true

/-- So many steps succeed, and the last one of them does not halt. -/
def Completes (c : Cpu) (n : Nat) : Prop :=
  ∀ i < n, ∃ out, (step.run (c.stepped i)).result = .ok out ∧ (i + 1 = n → out.halted = false)

theorem not_passes_of_error (h : (step.run c).result = .error e) : ¬ c.Passes := by
  rintro ⟨out, hok, -⟩
  rw [h] at hok
  cases hok

theorem not_passes_of_halted (h : (step.run c).result = .ok out) (hh : out.halted = true) :
    ¬ c.Passes := by
  rintro ⟨out', hok, hpass⟩
  rw [h] at hok
  cases hok
  rw [hh] at hpass
  cases hpass

/-- The first step that does not pass is the only one that a run attempts. -/
theorem Attempts.eq_of_not_passes (hj : c.Attempts limit j) (hk : c.Attempts limit k)
    (hstopj : ¬ (c.stepped j).Passes) (hstopk : ¬ (c.stepped k).Passes) : j = k := by
  rcases Nat.lt_trichotomy j k with hlt | heq | hlt
  · exact absurd (hk.1 j hlt) hstopj
  · exact heq
  · exact absurd (hj.1 k hlt) hstopk

theorem Passes.running (h : c.Passes) (hrun : c.state = .running) :
    (step.run c).state.state = .running := by
  obtain ⟨out, hok, hh⟩ := h
  obtain ⟨-, -, hbrk⟩ := state_of_step_ok hrun hok
  split at hbrk
  · rw [hbrk.1] at hh
    cases hh
  · exact hbrk.2

/-- A running processor halts on a `BRK` only. -/
theorem brk_of_halted (hrun : c.state = .running) (h : (step.run c).result = .ok out)
    (hh : out.halted = true) : out.opcode = 0x00 ∧ (step.run c).state.state = .halted := by
  obtain ⟨-, -, hbrk⟩ := state_of_step_ok hrun h
  split at hbrk
  · next hcase => exact ⟨hcase.1, hbrk.2.1⟩
  · rw [hbrk.1] at hh
    cases hh

/-- A processor that halts goes on halting. -/
theorem halts_again (h : (step.run c).result = .ok out) (hh : out.halted = true) :
    ∃ again, (step.run (step.run c).state).result = .ok again ∧ again.halted = true := by
  have hstate : (step.run c).state.state = .halted := by
    cases hs : c.state with
    | running => exact (brk_of_halted hs h hh).2
    | halted => rwa [run_step_of_halted hs]
    | resetPending =>
      rw [run_step_of_not_ready (.inl hs)] at h
      cases h
    | faulted =>
      rw [run_step_of_not_ready (.inr hs)] at h
      cases h
  rw [run_step_of_halted hstate]
  exact ⟨_, rfl, rfl⟩

/-- Where the last one of some steps does not halt, none of them does. -/
theorem completes_iff : c.Completes n ↔ ∀ i < n, (c.stepped i).Passes := by
  refine ⟨fun h i hi => ?_, fun h i hi => ?_⟩
  · obtain ⟨d, rfl⟩ := Nat.exists_eq_add_of_lt hi
    -- Backwards from the last step: one that halted would be followed by another one.
    induction d generalizing i with
    | zero =>
      obtain ⟨out, hok, hlast⟩ := h i hi
      exact ⟨out, hok, hlast rfl⟩
    | succ d ih =>
      obtain ⟨out, hok, -⟩ := h i hi
      refine ⟨out, hok, Bool.eq_false_iff.2 fun hh => ?_⟩
      have hsum : i + (d + 1) + 1 = i + 1 + d + 1 := by omega
      obtain ⟨again, hok', hh'⟩ := halts_again hok hh
      exact not_passes_of_halted hok' hh' (ih (i + 1) (hsum ▸ h) (by omega))
  · obtain ⟨out, hok, hh⟩ := h i hi
    exact ⟨out, hok, fun _ => hh⟩

/-! Only one of the three can be. -/

theorem FailsFirst.unique {e' : CpuError} (h : c.FailsFirst limit e)
    (h' : c.FailsFirst limit e') : e = e' := by
  obtain ⟨j, hj, herror⟩ := h
  obtain ⟨k, hk, herror'⟩ := h'
  obtain rfl := hj.eq_of_not_passes hk (not_passes_of_error herror) (not_passes_of_error herror')
  rw [herror] at herror'
  exact Except.error.inj herror'

/-- A run that completes attempts no other steps. -/
theorem Completes.passes (h : c.Completes n) (hk : c.Attempts (some n) k) :
    (c.stepped k).Passes :=
  completes_iff.1 h k (hk.2 n rfl)

end Cpu

namespace CommandLine

open Cpu NesCore.Action

variable {options : Options} {file : Except String (List UInt8)} {c : Cartridge} {size : Nat}
  {tried : List Cpu} {output log : List String} {code code' : UInt8}

/-! ## Codes and last lines -/

/-- The file holds a dump of a board without a mapper, and this is its cartridge. -/
def Loads (file : Except String (List UInt8)) (c : Cartridge) : Prop :=
  ∃ data, file = .ok data ∧ Cartridge.ofBytes data = .ok c ∧ c.header.mapper = 0

/-- The file is missing, or no dump, or one of a board with a mapper. -/
def FailsToLoad (file : Except String (List UInt8)) : Prop :=
  (∃ reason, file = .error reason) ∨
  (∃ data e, file = .ok data ∧ Cartridge.ofBytes data = .error e) ∨
  ∃ data c, file = .ok data ∧ Cartridge.ofBytes data = .ok c ∧ c.header.mapper ≠ 0

/-- The processor of a session at its start. -/
def processor (options : Options) (c : Cartridge) : Cpu :=
  (Console.start c (Session.consoleConfig options)).state.cpu

theorem loads_or_failsToLoad (file : Except String (List UInt8)) :
    (∃ c, Loads file c) ∨ FailsToLoad file := by
  cases file with
  | error reason => exact .inr (.inl ⟨reason, rfl⟩)
  | ok data =>
    cases hc : Cartridge.ofBytes data with
    | error e => exact .inr (.inr (.inl ⟨data, e, rfl, hc⟩))
    | ok c =>
      by_cases hm : c.header.mapper = 0
      · exact .inl ⟨c, data, rfl, hc, hm⟩
      · exact .inr (.inr (.inr ⟨data, c, rfl, hc, hm⟩))

theorem Loads.unique {c' : Cartridge} (h : Loads file c) (h' : Loads file c') : c = c' := by
  obtain ⟨data, rfl, hc, -⟩ := h
  obtain ⟨data', hfile, hc', -⟩ := h'
  cases hfile
  rw [hc] at hc'
  exact Except.ok.inj hc'

/-- A session whose dump cannot be loaded ends before its first step. -/
theorem begin_of_failsToLoad (options : Options) (h : FailsToLoad file) :
    (Session.begin options file).next = .error 1 ∧
      ∃ text, (Session.begin options file).log.getLast? = some (logLine "ERROR" text) := by
  have hrefused (log : List String) (source : CartridgeError) :
      (Session.refused options log (.cartridge source)).next = .error 1 ∧
        ∃ text, (Session.refused options log (.cartridge source)).log.getLast? =
          some (logLine "ERROR" text) :=
    ⟨rfl, _, List.getLast?_concat⟩
  obtain ⟨reason, rfl⟩ | ⟨data, e, rfl, he⟩ | ⟨data, c, rfl, hc, hm⟩ := h
  · exact hrefused _ _
  · unfold Session.begin
    dsimp only
    rw [he]
    exact hrefused _ _
  · unfold Session.begin
    dsimp only
    rw [hc]
    dsimp only
    rw [Console.start_of_mapper hm]
    exact hrefused _ _

/-- A session whose dump can be loaded goes on with its first step, which is traced on demand. -/
theorem begin_of_loads (options : Options) (h : Loads file c) :
    (Session.begin options file).output =
        (if options.trace then [String.ofList (processor options c).traceLine] else []) ∧
      (Session.begin options file).next = .ok ⟨options, ⟨⟨0, []⟩, processor options c⟩⟩ := by
  obtain ⟨data, rfl, hc, hm⟩ := h
  obtain ⟨hok, -⟩ := Console.start_of_nrom hm (Session.consoleConfig options)
  unfold Session.begin
  dsimp only
  rw [hc]
  dsimp only
  rw [hok]
  exact ⟨rfl, rfl⟩

/-! ## The processor of a session -/

theorem processor_eq (options : Options) (h : Loads file c) :
    ∃ entry, processor options c = Console.fresh { brk := options.brk } entry
      ((Memory.blank options.policy).insert c) := by
  obtain ⟨data, -, -, hm⟩ := h
  obtain ⟨-, hstate⟩ := Console.start_of_nrom hm (Session.consoleConfig options)
  unfold processor
  rw [hstate, Console.state_reset]
  exact ⟨_, rfl⟩

/-- The steps up to the last one that a run attempts start from a running processor. -/
theorem running_stepped (options : Options) (h : Loads file c) {k : Nat}
    (hpasses : ∀ i < k, ((processor options c).stepped i).Passes) :
    ((processor options c).stepped k).state = .running := by
  have hstart : (processor options c).state = .running := by
    obtain ⟨entry, heq⟩ := processor_eq options h
    rw [heq]
    rfl
  exact stepped_of_passes (fun _ hrun hpass => hpass.running hrun) hstart hpasses

/-! ## Sessions that end -/

/-- How a session ends: with the error of its first step that does not pass, with the halt of that
step, or with the last one of the steps that were asked for. -/
inductive EndsWith (options : Options) (s : Cpu) (lastLine : String) : UInt8 → Prop
  | failed {e : CpuError} {text : String} (h : s.FailsFirst options.maxSteps e)
    (hline : lastLine = logLine "ERROR" text) : EndsWith options s lastLine (exitCode (.cpu e))
  | halted {steps : Nat} {t : Cpu} (h : s.HaltsFirst options.maxSteps)
    (hline : lastLine = summary .halted steps t) : EndsWith options s lastLine 0
  | completed {n : Nat} (hlimit : options.maxSteps = some n) (h : s.Completes n)
    (hline : lastLine = summary .cancelled n (s.stepped n)) : EndsWith options s lastLine 0

theorem endsWith_of_ended {s : Session} {n k : Nat} (hstart : s.machine.host.steps = 0)
    (hended : Ended s.options s.machine k (s.runFor n))
    (hrun : (s.machine.cpu.stepped k).state = .running)
    (hcode : (s.proceed n).next = .error code) :
    ∃ before lastLine, (s.proceed n).log = before ++ [lastLine] ∧
      EndsWith s.options s.machine.cpu lastLine code := by
  have hattempts : s.machine.cpu.Attempts s.options.maxSteps k :=
    (hended.attempts_iff hstart).2 (Nat.le_refl k)
  have hlast := hended.last
  rcases hr : (s.runFor n).result with e | _ | _ | _
  · rw [hr] at hlast
    rw [Session.proceed_of_error hr] at hcode ⊢
    cases hcode
    exact ⟨_, _, rfl, .failed ⟨k, hattempts, hlast⟩ rfl⟩
  · rw [hr] at hlast
    exact hlast.elim
  · rw [hr] at hlast
    obtain ⟨out, hok, hh⟩ := hlast
    rw [Session.proceed_of_stopped hr] at hcode ⊢
    cases hcode
    have hopcode : out.opcode = 0x00 := (brk_of_halted hrun hok hh).1
    exact ⟨_, _, rfl, .halted ⟨k, out, hattempts, hok, hopcode, hh⟩ rfl⟩
  · rw [hr] at hlast
    obtain ⟨hpass, hlimit, hsteps⟩ := hlast
    rw [hstart, Nat.zero_add] at hlimit hsteps
    rw [Session.proceed_of_stopped hr, hsteps, hended.cpu] at *
    cases hcode
    have hcompletes : s.machine.cpu.Completes (k + 1) := by
      refine completes_iff.2 fun i hi => ?_
      rcases Nat.lt_succ_iff_lt_or_eq.1 hi with hlt | rfl
      · exact hended.passes i hlt
      · exact hpass
    exact ⟨_, _, rfl, .completed hlimit hcompletes rfl⟩

/-- A program whose dump can be loaded exits with the last step that its run attempts. -/
theorem exits_of_loads (hlimit : ∀ n ∈ options.maxSteps, 1 ≤ n) (hsize : 1 ≤ size)
    (hload : Loads file c)
    (h : (Session.begin options file).Exits size tried output log code) :
    ∃ k lastLine, tried = (List.range (k + 1)).map (processor options c).stepped ∧
      (∀ i, (processor options c).Attempts options.maxSteps i ↔ i ≤ k) ∧
      log.getLast? = some lastLine ∧ EndsWith options (processor options c) lastLine code ∧
      output = if options.trace
        then String.ofList (processor options c).traceLine ::
          (List.range k).map fun i => lineOf options ((processor options c).stepped (i + 1))
        else [] := by
  obtain ⟨houtput, hnext⟩ := begin_of_loads options hload
  obtain ⟨n, hcode, rfl, rfl, rfl⟩ := (Stretch.exits_iff_of_ok hsize hnext).1 h
  obtain ⟨k, hended, htries⟩ := exists_ended n hlimit (Session.runFor_ne_of_error hcode)
  obtain ⟨before, lastLine, hlog, hends⟩ :=
    endsWith_of_ended rfl hended (running_stepped options hload hended.passes) hcode
  refine ⟨k, lastLine, htries, fun i => hended.attempts_iff rfl, ?log, hends, ?output⟩
  case log =>
    rw [hlog, ← List.append_assoc]
    exact List.getLast?_concat
  case output =>
    have hlines := (Session.output_proceed _ n).trans hended.pending
    rw [houtput, hlines]
    cases options.trace <;> rfl

/-! ## The exit code -/

variable {s : Cpu} {lastLine : String}

namespace EndsWith

end EndsWith

/-- A program that was asked for a number of steps ends. -/
theorem exists_exits_of_maxSteps (hsize : 1 ≤ size) (hlimit : ∀ n ∈ options.maxSteps, 1 ≤ n)
    (file : Except String (List UInt8)) {n : Nat} (hn : options.maxSteps = some n) :
    ∃ tried output log code, (Session.begin options file).Exits size tried output log code := by
  obtain ⟨c, hload⟩ | hfails := loads_or_failsToLoad file
  · obtain ⟨-, hnext⟩ := begin_of_loads options hload
    let s : Session := ⟨options, ⟨⟨0, []⟩, processor options c⟩⟩
    have hended : (s.runFor n).result ≠ .ok none := by
      intro hgoing
      have hlt : 0 + n < n := below_of_going n hlimit hgoing n hn
      omega
    obtain ⟨code, hcode⟩ := Session.exists_error_of_ne hended
    exact ⟨_, _, _, code, (Stretch.exits_iff_of_ok hsize hnext).2 ⟨n, hcode, rfl, rfl, rfl⟩⟩
  · obtain ⟨hnext, -⟩ := begin_of_failsToLoad options hfails
    exact ⟨_, _, _, 1, .last hnext⟩

end CommandLine

end NesCore
