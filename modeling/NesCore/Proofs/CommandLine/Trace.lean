import NesCore.Proofs.CommandLine.ExitStatus
import NesCore.Proofs.InterruptLatches
import NesCore.Proofs.TraceText

/-!
# Traces

A traced program writes a line before its first step and one after each step that is followed by
another, so one before every step that it attempts. Each is a single line (`newline_not_mem_line`)
and starts with the address that the step executes, since nothing interrupts a session
(`pc_of_step`). Without a trace a session keeps no lines and otherwise goes the same way
(`Session.proceed_untraced`).

Main statement: `trace_shows_attempts`.
-/

namespace NesCore

/-! ## Single lines -/

namespace TraceLine

/-- A line without colour has no line break. -/
theorem newline_not_mem_line (m : Memory) (r : Registers) (cycles : UInt64) :
    '\n' ∉ line m r cycles false :=
  (printable_line m r cycles).not_mem (by decide)

/-- The address column of a line without colour. -/
theorem take_line (m : Memory) (r : Registers) (cycles : UInt64) :
    (line m r cycles false).take 4 = Text.wordDigits r.pc := rfl

end TraceLine

/-! ## Where a step executes -/

namespace Cpu

variable {c : Cpu}

theorem Undisturbed.step (h : c.Undisturbed) (hpass : c.Passes) :
    (step.run c).state.Undisturbed := by
  have ⟨out, hok, _⟩ := hpass
  obtain ⟨-, -, hnmi, hirq⟩ := latches_of_step h.running hok
  rw [h.irqPending, Bool.false_and] at hirq
  exact { running := hpass.running h.running, nmiPending := hnmi, irqPending := hirq }

/-- Where no interrupt waits, a step executes the instruction at PC. -/
theorem pc_of_step (h : c.Undisturbed) :
    (∀ out, (step.run c).result = .ok out → out.pc = c.pc) ∧
      ∀ e, (step.run c).result = .error e → e.pc = c.pc := by
  refine ⟨fun out hok => ?ok, fun e he => ?error⟩
  case ok =>
    obtain ⟨hpc, -, -⟩ := state_of_step_ok h.running hok
    rw [hpc, fetchAddress, h.interruptDue]
    rfl
  case error =>
    have hentry : c.afterEntry.pc = c.pc := by
      rw [afterEntry, h.interruptDue]
      exact c.pc_acknowledged
    have hstep := (result_step_eq_error_iff h.running).1 he
    rw [stepError?, Option.or_eq_some_iff] at hstep
    obtain hrefused | ⟨-, hrefused⟩ := hstep
    · obtain ⟨d, -, rfl⟩ := Option.map_eq_some_iff.1 hrefused
      rfl
    · obtain ⟨d, -, rfl⟩ := Option.map_eq_some_iff.1 hrefused
      exact hentry

end Cpu

namespace CommandLine

open Cpu NesCore.Action

variable {options : Options} {file : Except String (List UInt8)} {c : Cartridge} {size n k : Nat}
  {tried : List Cpu} {output log : List String} {code : UInt8}

/-- Nothing interrupts a session. -/
theorem undisturbed_stepped (hload : Loads file c)
    (hpasses : ∀ i < k, ((processor options c).stepped i).Passes) :
    ((processor options c).stepped k).Undisturbed := by
  have hstart : (processor options c).Undisturbed := by
    obtain ⟨entry, heq⟩ := processor_eq options hload
    rw [heq]
    exact ⟨rfl, rfl, rfl⟩
  exact stepped_of_passes (fun _ h hpass => h.step hpass) hstart hpasses

/-! ## Without a trace -/

/-- Progress of which no lines are kept. -/
def Progress.untraced (p : Progress) : Progress := { p with pending := [] }

/-- The same request for a run without a trace. -/
abbrev Options.untraced (options : Options) : Options := { options with trace := false }

/-- The trace makes no difference to how a host answers. -/
theorem host_untraced (options : Options) (p : Progress) (tick : Tick) (memory : Memory) :
    host options.untraced p.untraced tick memory =
      ⟨(host options p tick memory).host.untraced, (host options p tick memory).memory,
        (host options p tick memory).goOn⟩ := rfl

namespace Session

/-- The same session without a trace. -/
def untraced (s : Session) : Session := ⟨s.options.untraced, s.machine.map Progress.untraced⟩

/-- Without a trace a session ends in the same way, after the same steps and with the same log. -/
theorem proceed_untraced {s : Session} (h : (s.proceed n).next = .error code) :
    s.untraced.proceed n = ⟨[], (s.proceed n).log, .error code⟩ ∧
      s.untraced.tries n = s.tries n := by
  obtain ⟨hrun, htries⟩ := run_runFor_map (host_untraced s.options) n s.machine
  have hrun : s.untraced.runFor n = (s.runFor n).onState (Hosted.map Progress.untraced) := hrun
  have hsame : s.runFor n = (s.runFor n).onState (Hosted.map id) := rfl
  obtain ⟨hlog, hnext⟩ := log_and_next_of_alike hsame hrun (fun _ => rfl) rfl
  have houtput : (s.untraced.proceed n).output = [] := by
    rw [output_proceed, hrun]
    rfl
  refine ⟨?_, htries⟩
  rw [← houtput, ← hlog, ← (hnext code).2 h]

end Session

/-- A program that ends does so without a trace as well. -/
theorem exits_untraced (hsize : 1 ≤ size) (hload : Loads file c)
    (h : (Session.begin options file).Exits size tried output log code) :
    (Session.begin options.untraced file).Exits size tried [] log code := by
  obtain ⟨-, hnext⟩ := begin_of_loads options hload
  obtain ⟨houtput', hnext'⟩ := begin_of_loads options.untraced hload
  obtain ⟨n, hcode, rfl, rfl, rfl⟩ := (Stretch.exits_iff_of_ok hsize hnext).1 h
  obtain ⟨hproceed, htries⟩ := Session.proceed_untraced hcode
  have hlog : (Session.begin options.untraced file).log = (Session.begin options file).log :=
    Session.log_begin_congr _ _ file rfl rfl rfl
  refine (Stretch.exits_iff_of_ok hsize hnext').2 ⟨n, ?_, ?_, ?_, ?_⟩
  · exact congrArg Stretch.next hproceed
  · exact htries.symm
  · rw [houtput']
    exact (congrArg Stretch.output hproceed).symm
  · rw [hlog]
    exact congrArg (_ ++ ·) (congrArg Stretch.log hproceed).symm

/-- **The trace.** A program that was called with a valid line for a trace without colour, for a
file that holds a dump, and that ends, writes one line before each step that it attempts, from the
processor of that moment, and no other. The line starts with the address of the instruction that
the step executes or fails on. Without a trace the program makes the same steps, keeps the same log
and exits with the same code. -/
theorem trace_shows_attempts {arguments : List String}
    (hargs : Request.ofArguments arguments = .run options) (htrace : options.trace = true)
    (hcolour : options.colour = false) (hload : Loads file c) (hsize : 1 ≤ size)
    (h : (Session.begin options file).Exits size tried output log code) :
    let cpu := processor options c
    tried = (List.range tried.length).map cpu.stepped ∧
    (∀ i, cpu.Attempts options.maxSteps i ↔ i < tried.length) ∧
    output = tried.map (fun s => String.ofList s.traceLine) ∧
    (∀ s ∈ tried, '\n' ∉ s.traceLine ∧ s.traceLine.take 4 = Text.wordDigits s.pc ∧
      (∀ out, (step.run s).result = .ok out → out.pc = s.pc) ∧
      ∀ e, (step.run s).result = .error e → e.pc = s.pc) ∧
    (∀ tried' output' log' code',
      (Session.begin { options with trace := false } file).Exits size tried' output' log' code' ↔
        tried' = tried ∧ output' = [] ∧ log' = log ∧ code' = code) ∧
    ("--trace" ∈ arguments → Request.ofArguments (arguments.erase "--trace") =
      .run { options with trace := false }) := by
  intro cpu
  have huntraced := exits_untraced hsize hload h
  obtain ⟨k, -, rfl, hattempts, -, -, houtput⟩ :=
    exits_of_loads (one_le_of_ofArguments hargs) hsize hload h
  refine ⟨by simp [cpu], fun i => ?attempts, ?output, fun s hs => ?line,
    fun tried' output' log' code' => ⟨huntraced.unique, ?without⟩,
    ofArguments_erase_trace hargs hcolour⟩
  case attempts =>
    rw [List.length_map, List.length_range, Nat.lt_succ_iff]
    exact hattempts i
  case output =>
    have hline (s : Cpu) : lineOf options s = String.ofList s.traceLine := by
      unfold lineOf Cpu.traceLine
      rw [hcolour]
    rw [houtput, htrace, if_pos rfl, List.range_succ_eq_map, List.map_cons, List.map_cons,
      List.map_map, List.map_map]
    simp only [hline]
    rfl
  case line =>
    obtain ⟨i, hi, rfl⟩ := List.mem_map.1 hs
    have hle : i ≤ k := Nat.lt_succ_iff.1 (List.mem_range.1 hi)
    have hpasses := ((hattempts i).2 hle).1
    exact ⟨TraceLine.newline_not_mem_line _ _ _, TraceLine.take_line _ _ _,
      pc_of_step (undisturbed_stepped hload hpasses)⟩
  case without =>
    rintro ⟨rfl, rfl, rfl, rfl⟩
    exact huntraced

/-- Two lines for a `NOP` and a `BRK` that halts, the last of the steps that were asked for. -/
theorem trace_shows_attempts_of_nop_brk :
    let arguments := ["--rom-path", "x.nes", "--trace", "--max-steps", "2"]
    let options : Options := ⟨"x.nes", true, false, false, .flat, .halt, some 2⟩
    let data : List UInt8 :=
      [0x4E, 0x45, 0x53, 0x1A, 0, 0, 0, 0x08, 0, 0x0F, 0, 0, 0, 0, 0, 0, 0xEA]
    Request.ofArguments arguments = .run options ∧
      ∃ tried output log code, (Session.begin options (.ok data)).Exits 1024 tried output log code ∧
        tried.length = 2 ∧ output = tried.map (fun s => String.ofList s.traceLine) ∧
        (Session.begin { options with trace := false } (.ok data)).Exits 1024 tried [] log code ∧
        Request.ofArguments ["--rom-path", "x.nes", "--max-steps", "2"] =
          .run { options with trace := false } := by
  intro arguments options data
  have hargs : Request.ofArguments arguments = .run options := by decide +kernel
  let c := Cartridge.slices (Header.fields data) data
  have hload : Loads (.ok data) c := ⟨data, rfl, by decide +kernel, by decide +kernel⟩
  obtain ⟨tried, output, log, code, h⟩ := exists_exits_of_maxSteps (show 1 ≤ 1024 by decide)
    (one_le_of_ofArguments hargs) (.ok data) (show options.maxSteps = some 2 from rfl)
  obtain ⟨-, hattempts, houtput, -, huntraced, herase⟩ :=
    trace_shows_attempts hargs rfl rfl hload (by decide) h
  have hnop : (step.run (processor options c)).result = .ok ⟨0x8000, 0xEA, 2, false, none⟩ := by
    decide +kernel
  have hsecond : 1 < tried.length := by
    refine (hattempts 1).1 ⟨fun i hi => ?_, by decide⟩
    obtain rfl : i = 0 := by omega
    exact ⟨_, hnop, rfl⟩
  have hthird : ¬ 2 < tried.length := fun hlt =>
    absurd (((hattempts 2).2 hlt).2 2 rfl) (Nat.lt_irrefl 2)
  refine ⟨hargs, tried, output, log, code, h, by omega, houtput,
    (huntraced _ _ _ _).2 ⟨rfl, rfl, rfl, rfl⟩, herase (by decide)⟩

end CommandLine

end NesCore
