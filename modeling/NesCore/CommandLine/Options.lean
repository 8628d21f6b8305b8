import NesCore.Memory.Basic
import NesCore.Cpu.Basic

/-!
# Command-line arguments

Arguments are read from left to right. The first mistake, or a request for help or the version,
decides; what only the whole line shows, such as a missing path, is checked at its end
(`Draft.finish`).
-/

namespace NesCore.CommandLine

/-- The settings of a program run. -/
structure Options where
  romPath : String
  /-- Print a line for every instruction. -/
  trace : Bool
  /-- Colour the trace. -/
  colour : Bool
  /-- Show debug lines in the log. -/
  debug : Bool
  policy : IoPolicy
  brk : BrkMode
  /-- Stop after this many instructions. -/
  maxSteps : Option Nat
  deriving DecidableEq, Repr

/-- What a command line asks for. -/
inductive Request
  | run (options : Options)
  | help
  | version
  /-- Nothing that the program understands. -/
  | misuse
  deriving DecidableEq, Repr

/-! ## Names -/

/-- An option that takes a value. -/
inductive Setting
  | romPath
  | policy
  | brk
  | maxSteps
  deriving DecidableEq, Repr

/-- An option without a value. -/
inductive Switch
  | trace
  | colour
  | debug
  | help
  | version
  deriving DecidableEq, Repr

/-- The setting of a long name. -/
def Setting.ofName : String → Option Setting
  | "rom-path" => some .romPath
  | "io" => some .policy
  | "brk" => some .brk
  | "max-steps" => some .maxSteps
  | _ => none

/-- The switch of a long name. -/
def Switch.ofName : String → Option Switch
  | "trace" => some .trace
  | "color" => some .colour
  | "debug" => some .debug
  | "help" => some .help
  | "version" => some .version
  | _ => none

/-- The switch of a letter. -/
def Switch.ofLetter : Char → Option Switch
  | 't' => some .trace
  | 'd' => some .debug
  | 'h' => some .help
  | 'V' => some .version
  | _ => none

/-! ## Values -/

/-- The policy of a name. -/
def policyOfName : String → Option IoPolicy
  | "flat" => some .flat
  | "mirrored" => some .mirrored
  | "silent" => some .silent
  | "fault" => some .fault
  | _ => none

/-- The meaning of `BRK` of a name. -/
def brkOfName : String → Option BrkMode
  | "halt" => some .halt
  | "interrupt" => some .interrupt
  | _ => none

/-- The value of a decimal digit. -/
def digitValue (c : Char) : Option Nat :=
  if '0' ≤ c ∧ c ≤ '9' then some (c.toNat - '0'.toNat) else none

/-- The value of decimal digits that follow a number. -/
def digitsValue (before : Nat) : List Char → Option Nat
  | [] => some before
  | c :: rest => (digitValue c).bind fun digit => digitsValue (10 * before + digit) rest

/-- The largest number of steps that can be asked for. -/
def stepLimit : Nat := 0xFFFFFFFFFFFFFFFF

/-- A number of steps: decimal digits after at most one plus sign, from 1 to the limit. -/
def stepsOfText (text : List Char) : Option Nat :=
  let digits := match text with
    | '+' :: rest => rest
    | _ => text
  if digits.isEmpty then none
  else (digitsValue 0 digits).filter fun n => 1 ≤ n ∧ n ≤ stepLimit

/-! ## Reading -/

/-- What has been read so far. -/
structure Draft where
  romPath : Option String := none
  trace : Bool := false
  colour : Bool := false
  debug : Bool := false
  policy : Option IoPolicy := none
  brk : Option BrkMode := none
  maxSteps : Option Nat := none
  deriving DecidableEq, Repr

namespace Draft

/-- Ends the reading with a request of another kind. -/
abbrev Reading : Type := Except Request Draft

/-- A path. -/
def giveRomPath (d : Draft) (value : String) : Option Draft :=
  if d.romPath.isSome || value.isEmpty then none else some { d with romPath := some value }

/-- A policy. -/
def givePolicy (d : Draft) (value : String) : Option Draft :=
  if d.policy.isSome then none
  else (policyOfName value).map fun policy => { d with policy := some policy }

/-- A meaning of `BRK`. -/
def giveBrk (d : Draft) (value : String) : Option Draft :=
  if d.brk.isSome then none else (brkOfName value).map fun brk => { d with brk := some brk }

/-- A number of steps. -/
def giveMaxSteps (d : Draft) (value : String) : Option Draft :=
  if d.maxSteps.isSome then none
  else (stepsOfText value.toList).map fun n => { d with maxSteps := some n }

/-- Takes a setting, which may come once. -/
def give (d : Draft) (setting : Setting) (value : String) : Reading :=
  let given := match setting with
    | .romPath => d.giveRomPath value
    | .policy => d.givePolicy value
    | .brk => d.giveBrk value
    | .maxSteps => d.giveMaxSteps value
  match given with
  | some d => .ok d
  | none => .error .misuse

/-- Takes a switch, which may come once. -/
def turnOn (d : Draft) : Switch → Reading
  | .trace => if d.trace then .error .misuse else .ok { d with trace := true }
  | .colour => if d.colour then .error .misuse else .ok { d with colour := true }
  | .debug => if d.debug then .error .misuse else .ok { d with debug := true }
  | .help => .error .help
  | .version => .error .version

/-- Takes switches given as letters behind one dash. -/
def turnOnLetters (d : Draft) : List Char → Reading
  | [] => .ok d
  | c :: rest =>
    match Switch.ofLetter c with
    | none => .error .misuse
    | some switch =>
      match d.turnOn switch with
      | .ok d => d.turnOnLetters rest
      | .error request => .error request

/-- A word that can be the value of the option before it: a lone dash can, a longer word with a
dash in front cannot. -/
def isValue (word : String) : Bool :=
  match word.toList with
  | '-' :: _ :: _ => false
  | _ => true

/-- The value attached to a long option with an equals sign. -/
def attached (long : List Char) : Option String :=
  match long.dropWhile (· != '=') with
  | [] => none
  | _ :: value => some (String.ofList value)

/-- A long option: which it is and the value attached to it. -/
inductive LongOption
  | setting (setting : Setting) (value : Option String)
  | switch (switch : Switch)
  | unknown

/-- Reads a long option. A switch takes no value. -/
def longOption (long : List Char) : LongOption :=
  let name := String.ofList (long.takeWhile (· != '='))
  match Setting.ofName name, Switch.ofName name, attached long with
  | some setting, _, value => .setting setting value
  | none, some switch, none => .switch switch
  | none, _, _ => .unknown

/-- Reads words from left to right. -/
def read (d : Draft) : List String → Reading
  | [] => .ok d
  | word :: rest =>
    match word.toList with
    | ['-', '-'] => if rest.isEmpty then .ok d else .error .misuse
    | '-' :: '-' :: long =>
      match longOption long with
      | .setting setting (some value) => (d.give setting value).bind fun d => d.read rest
      | .setting setting none =>
        match rest with
        | [] => .error .misuse
        | value :: rest =>
          if isValue value then (d.give setting value).bind fun d => d.read rest
          else .error .misuse
      | .switch switch => (d.turnOn switch).bind fun d => d.read rest
      | .unknown => .error .misuse
    | '-' :: first :: letters => (d.turnOnLetters (first :: letters)).bind fun d => d.read rest
    | _ => .error .misuse

/-- Checks the line as a whole: a path is needed, and colour needs a trace. -/
def finish (d : Draft) : Request :=
  match d.romPath with
  | none => .misuse
  | some romPath =>
    if d.colour && !d.trace then .misuse
    else .run {
      romPath
      trace := d.trace
      colour := d.colour
      debug := d.debug
      policy := d.policy.getD .flat
      brk := d.brk.getD .halt
      maxSteps := d.maxSteps }

end Draft

/-- The request of a command line. -/
def Request.ofArguments (arguments : List String) : Request :=
  match ({} : Draft).read arguments with
  | .ok draft => draft.finish
  | .error request => request

end NesCore.CommandLine
