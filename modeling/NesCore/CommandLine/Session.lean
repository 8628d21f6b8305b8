import NesCore.CommandLine.Options
import NesCore.Console
import NesCore.TraceLine

/-!
# A program run

`Session.begin` loads a dump and starts a console; `Session.proceed` runs it for a number of
steps. Both yield a `Stretch`: the lines written meanwhile and whether the session goes on. A
session ends with 0 on a halt or after the asked number of steps, 1 if the dump cannot be loaded, 2
on an illegal opcode and 3 on any other fault.
-/

namespace NesCore.CommandLine

/-! ## Log lines -/

/-- A log line of a level. -/
def logLine (level : String) (text : String) : String := s!"[{level}] {text}"

/-- The part of the program that a debug line names. -/
def component : Notice → String
  | .fileRead .. | .trailingBytes _ | .cartridgeRead .. => "elaris_core::cartridge::cartridge"
  | .romMapped .. | .romWriteIgnored .. => "elaris_core::memory"
  | _ => "elaris_core::cpu::cpu"

/-- The log line of a notice. Debug lines are shown on demand, trace lines never. -/
def noticeLine (debug : Bool) (n : Notice) : Option String :=
  match n.level with
  | .warn | .info => some (logLine n.level.name n.text)
  | .debug => if debug then some (logLine n.level.name s!"{component n}: {n.text}") else none
  | .trace => none

/-- An error with its causes, each after a colon. -/
def causes : ConsoleError → String
  | .cartridge (.unreadable reason) => s!"{CartridgeError.message (.unreadable reason)}: {reason}"
  | .cpu ⟨pc, .bus source⟩ => s!"{CpuError.message ⟨pc, .bus source⟩}: {source.message}"
  | e => e.message

/-- The exit code of an error. -/
def exitCode : ConsoleError → UInt8
  | .cartridge _ => 1
  | .cpu ⟨_, .illegalOpcode _⟩ => 2
  | .cpu _ => 3

/-! ## Sessions -/

/-- What a session keeps from tick to tick. -/
structure Progress where
  /-- The instructions executed so far. -/
  steps : Nat
  /-- The trace lines not yet written, the latest first. -/
  pending : List String
  deriving DecidableEq, Repr

/-- A running program. -/
structure Session where
  options : Options
  machine : Hosted Progress

/-- What a session wrote, and whether it goes on. -/
structure Stretch where
  output : List String
  log : List String
  /-- The session that goes on, or the exit code. -/
  next : Except UInt8 Session

/-- Counts the instruction just executed and traces the one that follows, if one does. -/
def host (options : Options) : Host Progress := fun progress tick m =>
  let steps := progress.steps + 1
  let goOn := options.maxSteps.all fun limit => steps < limit
  let pending :=
    if options.trace && goOn && !tick.outcome.halted then
      String.ofList (TraceLine.line m tick.registers tick.cycles options.colour)
        :: progress.pending
    else progress.pending
  ⟨⟨steps, pending⟩, m, goOn⟩

/-- The last log line of a run that ends without an error. -/
def summary (reason : StopReason) (steps : Nat) (c : Cpu) : String :=
  match reason with
  | .halted =>
    logLine "INFO"
      (s!"halted on BRK at ${Text.word c.pc} after {c.cycles} cycles, A:{Text.byte c.a} "
        ++ s!"X:{Text.byte c.x} Y:{Text.byte c.y} P:{c.status.describe}")
  | .cancelled =>
    logLine "INFO" s!"stopped after {steps} instructions at ${Text.word c.pc} ({c.cycles} cycles)"

namespace Session

/-- The settings of the console. -/
def consoleConfig (options : Options) : ConsoleConfig where
  cpu := { brk := options.brk }
  policy := options.policy

/-- The end of a session whose dump cannot be loaded. -/
def refused (options : Options) (log : List String) (e : ConsoleError) : Stretch where
  output := []
  log := log ++ [logLine "ERROR" s!"failed to load {options.romPath}: {causes e}"]
  next := .error (exitCode e)

/-- Loads a dump, given by its bytes or by why they could not be read, and starts the console. -/
def begin (options : Options) (file : Except String (List UInt8)) : Stretch :=
  let opening := logLine "INFO" s!"Loading ROM: {options.romPath}"
  let logged (notices : List Notice) : List String :=
    opening :: notices.filterMap (noticeLine options.debug)
  match file with
  | .error reason => refused options (logged []) (.cartridge (.unreadable reason))
  | .ok data =>
    let read := Notice.fileRead data.length options.romPath
    match Cartridge.ofBytes data with
    | .error e => refused options (logged [read]) (.cartridge e)
    | .ok cartridge =>
      let started := Console.start cartridge (consoleConfig options)
      let notices := read :: cartridge.notices data.length ++ started.notices
      match started.result with
      | .error e => refused options (logged notices) e
      | .ok () =>
        let cpu := started.state.cpu
        { output := if options.trace then [String.ofList cpu.traceLine] else []
          log := logged notices
          next := .ok ⟨options, ⟨⟨0, []⟩, cpu⟩⟩ }

/-- Runs a session for at most the given number of steps. -/
def proceed (s : Session) (steps : Nat) : Stretch :=
  let o := (Cpu.runFor (host s.options) steps).run s.machine
  let progress := o.state.host
  let output := progress.pending.reverse
  let log := o.notices.filterMap (noticeLine s.options.debug)
  match o.result with
  | .ok none =>
    { output, log, next := .ok { s with machine := ⟨{ progress with pending := [] }, o.state.cpu⟩ } }
  | .ok (some reason) =>
    { output, log := log ++ [summary reason progress.steps o.state.cpu], next := .error 0 }
  | .error e =>
    { output
      log := log ++ [logLine "ERROR" s!"emulation stopped: {causes (.cpu e)}"]
      next := .error (exitCode (.cpu e)) }

end Session

/-! ## Other requests -/

/-- The name and version of the program. -/
def versionLine : String := "elaris-core 0.1.0"

/-- The exit code of a command line that is not understood. -/
def misuseCode : UInt8 := 2

/-- How the program is called. -/
def usage : List String :=
  [ "Usage: elaris-core [OPTIONS] --rom-path <ROM_PATH>",
    "",
    "Options:",
    "      --rom-path <ROM_PATH>    iNES / NES 2.0 ROM to run",
    "  -t, --trace                  Print a line for every instruction",
    "      --color                  Colour the trace",
    "  -d, --debug                  Enable debug logging",
    "      --io <IO>                flat, mirrored, silent or fault [default: flat]",
    "      --brk <BRK>              halt or interrupt [default: halt]",
    "      --max-steps <MAX_STEPS>  Stop after this many instructions",
    "  -h, --help                   Print help",
    "  -V, --version                Print version" ]

end NesCore.CommandLine
