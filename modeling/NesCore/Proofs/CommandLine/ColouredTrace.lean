import NesCore.Proofs.CommandLine.Trace

/-!
# Traces in colour

A traced session in plain and the same one in colour are two views of one run: a recorder that keeps
what the lines show (`recorder`, `Scene`) goes the same way as both, and each of them writes down
what it kept (`runFor_traced`). Since a plain line tells what it shows, it settles the line in
colour (`Scene.line_true_of_line_false`). The line before the first step is written without the option for
colour and stays plain (`not_forall_line_true`).

Main statement: `colour_spares_first_line`.
-/

namespace NesCore.CommandLine

open Cpu NesCore.Action

/-! ## What a line shows -/

/-- What a trace line is made of. -/
structure Scene where
  memory : Memory
  registers : Registers
  cycles : UInt64

/-- The trace line of a scene, in colour or not. -/
def Scene.line (coloured : Bool) (s : Scene) : String :=
  String.ofList (TraceLine.line s.memory s.registers s.cycles coloured)

/-- What the trace line of a processor is made of. -/
def Scene.ofCpu (c : Cpu) : Scene := ⟨c.memory, c.toRegisters, c.cycles⟩

/-- Scenes with the same plain line have the same line in colour. -/
theorem Scene.line_true_of_line_false {s t : Scene} (h : s.line false = t.line false) :
    s.line true = t.line true := by
  obtain ⟨m, r, cycles⟩ := s
  obtain ⟨n, r', cycles'⟩ := t
  obtain ⟨hbytes, rfl, rfl⟩ := TraceLine.shown_of_line_eq (String.ofList_injective h)
  exact congrArg String.ofList (TraceLine.line_congr_of_bytesAt hbytes cycles true)

/-- Colour shows in a line. -/
theorem Scene.line_true_ne_line_false (s : Scene) : s.line true ≠ s.line false := by
  intro h
  have hplain := TraceLine.printable_line s.memory s.registers s.cycles
  have hescape : '\x1b' ∈ TraceLine.line s.memory s.registers s.cycles true := List.mem_cons_self
  rw [String.ofList_injective h] at hescape
  exact hplain.not_mem (by decide) hescape

/-- The lines of a plain trace, and of the same trace in colour but for the first line: that one is
plain in both, and any other line is the line in colour of the scene that the plain one shows. -/
structure Recoloured (plain coloured : List String) : Prop where
  length : coloured.length = plain.length
  first : coloured.head? = plain.head?
  shown : ∀ line ∈ plain, ∃ s : Scene, line = s.line false
  later : ∀ i (s : Scene), plain[i + 1]? = some (s.line false) →
    coloured[i + 1]? = some (s.line true)

theorem recoloured_of_scenes (first : Scene) (scenes : List Scene) :
    Recoloured (first.line false :: scenes.map (Scene.line false))
      (first.line false :: scenes.map (Scene.line true)) where
  length := by simp
  first := rfl
  shown line hline := by
    rw [← List.map_cons] at hline
    obtain ⟨s, -, rfl⟩ := List.mem_map.1 hline
    exact ⟨s, rfl⟩
  later i s hplain := by
    rw [List.getElem?_cons_succ, List.getElem?_map, Option.map_eq_some_iff] at hplain ⊢
    obtain ⟨t, ht, hline⟩ := hplain
    exact ⟨t, ht, Scene.line_true_of_line_false hline⟩

/-- The lines of the plain trace settle those of the other one. -/
theorem Recoloured.unique {plain coloured coloured' : List String} (h : Recoloured plain coloured)
    (h' : Recoloured plain coloured') : coloured = coloured' := by
  refine List.ext_getElem? fun i => ?_
  cases i with
  | zero => rw [← List.head?_eq_getElem?, ← List.head?_eq_getElem?, h.first, h'.first]
  | succ i =>
    by_cases hi : i + 1 < plain.length
    · obtain ⟨s, hs⟩ := h.shown _ (List.getElem_mem hi)
      have hplain : plain[i + 1]? = some (s.line false) := by rw [List.getElem?_eq_getElem hi, hs]
      rw [h.later i s hplain, h'.later i s hplain]
    · have hlong := h.length
      have hlong' := h'.length
      rw [List.getElem?_eq_none (by omega), List.getElem?_eq_none (by omega)]

/-! ## The recorder -/

/-- What a traced session keeps from tick to tick, before it is written down. -/
structure Recording where
  /-- The instructions executed so far. -/
  steps : Nat
  /-- What the trace lines show, the latest first. -/
  scenes : List Scene

/-- The progress of a session that writes down what was recorded. -/
def Recording.progress (coloured : Bool) (r : Recording) : Progress :=
  ⟨r.steps, r.scenes.map (Scene.line coloured)⟩

/-- A host that goes on as a session with this limit does and keeps what a trace shows. -/
def recorder (limit : Option Nat) : Host Recording := fun r tick m =>
  let steps := r.steps + 1
  let goOn := limit.all fun n => steps < n
  let scenes :=
    if goOn && !tick.outcome.halted then ⟨m, tick.registers, tick.cycles⟩ :: r.scenes
    else r.scenes
  ⟨⟨steps, scenes⟩, m, goOn⟩

/-- The host of a traced session writes down what the recorder keeps. -/
theorem host_progress {options : Options} (htrace : options.trace = true) (r : Recording)
    (tick : Tick) (m : Memory) :
    host options (r.progress options.colour) tick m =
      ⟨(recorder options.maxSteps r tick m).host.progress options.colour,
        (recorder options.maxSteps r tick m).memory,
        (recorder options.maxSteps r tick m).goOn⟩ := by
  unfold host recorder Recording.progress
  dsimp only
  rw [htrace, Bool.true_and]
  split <;> rfl

/-- The run of a recorder from a processor on. -/
abbrev recorded (limit : Option Nat) (c : Cpu) (n : Nat) :
    Outcome (Hosted Recording) CpuError (Option StopReason) :=
  (runFor (recorder limit) n).run ⟨⟨0, []⟩, c⟩

/-- A traced session is a view of the recorder's run. -/
theorem runFor_traced {options : Options} (htrace : options.trace = true) (c : Cpu) (n : Nat) :
    Session.runFor ⟨options, ⟨⟨0, []⟩, c⟩⟩ n =
        (recorded options.maxSteps c n).onState (Hosted.map (Recording.progress options.colour)) ∧
      Session.tries ⟨options, ⟨⟨0, []⟩, c⟩⟩ n =
        attempts (recorder options.maxSteps) n ⟨⟨0, []⟩, c⟩ :=
  run_runFor_map (host_progress htrace) n ⟨⟨0, []⟩, c⟩

/-! ## Sessions in plain and in colour -/

variable {options : Options} {file : Except String (List UInt8)} {c : Cartridge} {size : Nat}

/-- The same request for a run in colour. -/
abbrev Options.coloured (options : Options) : Options := { options with colour := true }

/-- In colour a traced session makes the same steps with the same log, ends in the same way and
writes lines for the same scenes. -/
theorem Session.proceed_coloured (htrace : options.trace = true) (hplain : options.colour = false)
    (cpu : Cpu) (n : Nat) :
    let plain : Session := ⟨options, ⟨⟨0, []⟩, cpu⟩⟩
    let coloured : Session := ⟨options.coloured, ⟨⟨0, []⟩, cpu⟩⟩
    (coloured.proceed n).log = (plain.proceed n).log ∧
    (∀ code, (coloured.proceed n).next = .error code ↔ (plain.proceed n).next = .error code) ∧
    coloured.tries n = plain.tries n ∧
    ∃ scenes : List Scene, (plain.proceed n).output = scenes.map (Scene.line false) ∧
      (coloured.proceed n).output = scenes.map (Scene.line true) := by
  intro plain coloured
  have htrace' : options.coloured.trace = true := htrace
  obtain ⟨hrun, htries⟩ := runFor_traced htrace cpu n
  obtain ⟨hrun', htries'⟩ := runFor_traced htrace' cpu n
  obtain ⟨hlog, hnext⟩ := log_and_next_of_alike hrun hrun' (fun _ => rfl) rfl
  refine ⟨hlog, hnext, htries'.trans htries.symm,
    (recorded options.maxSteps cpu n).state.host.scenes.reverse, ?_, ?_⟩
  · rw [output_proceed, List.map_reverse, ← hplain]
    exact congrArg lines hrun
  · rw [output_proceed, List.map_reverse]
    exact congrArg lines hrun'

/-- **Colour spares the first line.** To a valid line for a plain trace `--color` can be added in
front, and wherever else the line is valid with it, it asks for the same. For every file that holds
a dump the program then makes the same steps, keeps the same log, ends at the same point with the
same code and writes as many lines. The first one is the plain line that it writes without colour as
well; each other one is the line in colour of the memory, registers and cycle count whose plain line
it writes without. -/
theorem colour_spares_first_line {arguments : List String}
    (hargs : Request.ofArguments arguments = .run options) (htrace : options.trace = true)
    (hplain : options.colour = false) (hload : Loads file c) (hsize : 1 ≤ size) :
    let coloured : Options := { options with colour := true }
    let start := Session.begin options file
    let start' := Session.begin coloured file
    Request.ofArguments ("--color" :: arguments) = .run coloured ∧
    (∀ line options', Request.ofArguments line = .run options' → "--color" ∈ line →
      line.erase "--color" = arguments → options' = coloured) ∧
    start'.log = start.log ∧
    (∃ s s', start.next = .ok s ∧ start'.next = .ok s' ∧
      ∀ n, (s'.proceed n).log = (s.proceed n).log ∧
        (∀ code, (s'.proceed n).next = .error code ↔ (s.proceed n).next = .error code) ∧
        Recoloured (start.output ++ (s.proceed n).output)
          (start'.output ++ (s'.proceed n).output)) ∧
    ∀ tried output' log code, start'.Exits size tried output' log code ↔
      ∃ output, start.Exits size tried output log code ∧ Recoloured output output' := by
  intro coloured start start'
  let cpu := processor options c
  let s : Session := ⟨options, ⟨⟨0, []⟩, cpu⟩⟩
  let s' : Session := ⟨coloured, ⟨⟨0, []⟩, cpu⟩⟩
  obtain ⟨houtput, hnext⟩ : start.output = [String.ofList cpu.traceLine] ∧ start.next = .ok s := by
    have h := begin_of_loads options hload
    rwa [htrace] at h
  obtain ⟨houtput', hnext'⟩ :
      start'.output = [String.ofList cpu.traceLine] ∧ start'.next = .ok s' := by
    have h := begin_of_loads coloured hload
    rwa [show coloured.trace = true from htrace] at h
  have hlog : start'.log = start.log := Session.log_begin_congr _ _ file rfl rfl rfl
  have hsame (n : Nat) := Session.proceed_coloured htrace hplain cpu n
  have hrecoloured (n : Nat) : Recoloured (start.output ++ (s.proceed n).output)
      (start'.output ++ (s'.proceed n).output) := by
    obtain ⟨-, -, -, scenes, hlines, hlines'⟩ := hsame n
    rw [houtput, houtput', hlines, hlines']
    exact recoloured_of_scenes (.ofCpu cpu) scenes
  refine ⟨ofArguments_cons_colour hargs htrace hplain, fun line options' hline hmem herase => ?word,
    hlog, ⟨s, s', hnext, hnext', fun n => ?steps⟩, fun tried output' log code => ?exits⟩
  case word =>
    obtain ⟨hcolour, hrest⟩ := ofArguments_erase_colour hline hmem
    rw [herase, hargs] at hrest
    cases hrest
    show options' = { options' with colour := true }
    rw [← hcolour]
  case steps =>
    obtain ⟨hlog, hends, -⟩ := hsame n
    exact ⟨hlog, hends, hrecoloured n⟩
  case exits =>
    constructor
    · intro h
      obtain ⟨n, hcode, rfl, rfl, rfl⟩ := (Stretch.exits_iff_of_ok hsize hnext').1 h
      obtain ⟨hlog', hends, htries, -⟩ := hsame n
      exact ⟨_, (Stretch.exits_iff_of_ok hsize hnext).2 ⟨n, (hends code).1 hcode, htries, rfl,
        by rw [hlog, hlog']⟩, hrecoloured n⟩
    · rintro ⟨output, h, hrecolour⟩
      obtain ⟨n, hcode, rfl, rfl, rfl⟩ := (Stretch.exits_iff_of_ok hsize hnext).1 h
      obtain ⟨hlog', hends, htries, -⟩ := hsame n
      exact (Stretch.exits_iff_of_ok hsize hnext').2 ⟨n, (hends code).2 hcode, htries.symm,
        hrecolour.unique (hrecoloured n), by rw [hlog, hlog']⟩

/-- A `NOP` and a `BRK` that halts. The line of the `BRK` is written in colour. -/
theorem colour_spares_first_line_of_nop_brk :
    let arguments := ["--rom-path", "x.nes", "--trace", "--max-steps", "2"]
    let options : Options := ⟨"x.nes", true, false, false, .flat, .halt, some 2⟩
    let data : List UInt8 :=
      [0x4E, 0x45, 0x53, 0x1A, 0, 0, 0, 0x08, 0, 0x0F, 0, 0, 0, 0, 0, 0, 0xEA]
    Request.ofArguments arguments = .run options ∧
      Request.ofArguments ("--color" :: arguments) = .run { options with colour := true } ∧
      ∃ tried output log code, (Session.begin options (.ok data)).Exits 1024 tried output log code ∧
        (Session.begin { options with colour := true } (.ok data)).Exits 1024 tried
          ["8000  EA        NOP                             A:00 X:00 Y:00 P:24 SP:FD CYC:7",
            "\x1b[1;32m8001\x1b[0m  00        \x1b[36mBRK                             \x1b[0m"
              ++ "A:00 X:00 Y:00 P:24 SP:FD CYC:9"] log code := by
  intro arguments options data
  have hargs : Request.ofArguments arguments = .run options := by decide +kernel
  let c := Cartridge.slices (Header.fields data) data
  let cpu := processor options c
  have hload : Loads (.ok data) c := ⟨data, rfl, by decide +kernel, by decide +kernel⟩
  have hlimit := one_le_of_ofArguments hargs
  have hsize : 1 ≤ 1024 := by decide
  obtain ⟨tried, output, log, code, h⟩ := exists_exits_of_maxSteps hsize hlimit (.ok data)
    (show options.maxSteps = some 2 from rfl)
  obtain ⟨hline, -, -, -, hexits⟩ := colour_spares_first_line hargs rfl rfl hload hsize
  obtain ⟨k, -, -, hattempts, -, -, houtput⟩ := exits_of_loads hlimit hsize hload h
  have hnop : (step.run cpu).result = .ok ⟨0x8000, 0xEA, 2, false, none⟩ := by decide +kernel
  have hsecond : 1 ≤ k := by
    refine (hattempts 1).1 ⟨fun i hi => ?_, by decide⟩
    obtain rfl : i = 0 := by omega
    exact ⟨_, hnop, rfl⟩
  have hthird : ¬ 2 ≤ k := fun hle => absurd (((hattempts 2).2 hle).2 2 rfl) (Nat.lt_irrefl 2)
  obtain rfl : k = 1 := by omega
  have hrecoloured := recoloured_of_scenes (.ofCpu cpu) [.ofCpu (cpu.stepped 1)]
  have hfirst : (Scene.ofCpu cpu).line false =
      "8000  EA        NOP                             A:00 X:00 Y:00 P:24 SP:FD CYC:7" := by
    decide +kernel
  have hlast : (Scene.ofCpu (cpu.stepped 1)).line true =
      "\x1b[1;32m8001\x1b[0m  00        \x1b[36mBRK                             \x1b[0m"
        ++ "A:00 X:00 Y:00 P:24 SP:FD CYC:9" := by
    decide +kernel
  refine ⟨hargs, hline, tried, output, log, code, h, (hexits _ _ _ _).2 ⟨output, h, ?_⟩⟩
  rw [← hlast, ← hfirst, houtput]
  exact hrecoloured

/-- The first line has no colour, though the option for it is given. -/
theorem not_forall_line_true :
    let options : Options := ⟨"x.nes", true, false, false, .flat, .halt, some 1⟩
    let coloured : Options := { options with colour := true }
    let data : List UInt8 :=
      [0x4E, 0x45, 0x53, 0x1A, 0, 0, 0, 0x08, 0, 0x0F, 0, 0, 0, 0, 0, 0, 0xEA]
    Request.ofArguments ["--rom-path", "x.nes", "--trace", "--max-steps", "1"] = .run options ∧
    Request.ofArguments ["--rom-path", "x.nes", "--trace", "--color", "--max-steps", "1"] =
      .run coloured ∧
    ¬ ∀ tried output log code tried' output' log' code',
      (Session.begin options (.ok data)).Exits 1024 tried output log code →
      (Session.begin coloured (.ok data)).Exits 1024 tried' output' log' code' →
      ∀ (i : Nat) (s : Scene), output[i]? = some (s.line false) →
        output'[i]? = some (s.line true) := by
  intro options coloured data
  have hargs : Request.ofArguments ["--rom-path", "x.nes", "--trace", "--max-steps", "1"] =
      .run options := by decide +kernel
  have hargs' : Request.ofArguments
      ["--rom-path", "x.nes", "--trace", "--color", "--max-steps", "1"] = .run coloured := by
    decide +kernel
  refine ⟨hargs, hargs', fun hcolour => ?_⟩
  let c := Cartridge.slices (Header.fields data) data
  have hload : Loads (.ok data) c := ⟨data, rfl, by decide +kernel, by decide +kernel⟩
  have hlimit := one_le_of_ofArguments hargs
  have hlimit' := one_le_of_ofArguments hargs'
  have hsize : 1 ≤ 1024 := by decide
  obtain ⟨_, _, _, _, h⟩ := exists_exits_of_maxSteps hsize hlimit (.ok data)
    (show options.maxSteps = some 1 from rfl)
  obtain ⟨_, _, _, _, h'⟩ := exists_exits_of_maxSteps hsize hlimit' (.ok data)
    (show coloured.maxSteps = some 1 from rfl)
  obtain ⟨_, -, -, -, -, -, houtput⟩ := exits_of_loads hlimit hsize hload h
  obtain ⟨_, -, -, -, -, -, houtput'⟩ := exits_of_loads hlimit' hsize hload h'
  let first := Scene.ofCpu (processor options c)
  have hline := hcolour _ _ _ _ _ _ _ _ h h' 0 first (by rw [houtput]; rfl)
  have hline' : some (first.line false) = some (first.line true) := by
    rw [← hline, houtput']
    rfl
  exact first.line_true_ne_line_false (Option.some.inj hline').symm

end NesCore.CommandLine
