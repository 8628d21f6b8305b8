import NesCore.Cpu.State
import NesCore.Disassembly

/-!
# Trace lines

One line for the instruction that comes next: its address, its bytes, its assembler text, then the
registers and the cycle count, in fixed columns. A coloured line differs only by escape sequences
around address and text.
-/

namespace NesCore.TraceLine

/-! ## Colours -/

/-- The colours of a trace. -/
inductive Colour
  | address
  | instruction
  | illegal
  deriving DecidableEq, Repr

/-- The parameters of a colour's escape sequence. -/
def Colour.code : Colour → List Char
  | .address => ['1', ';', '3', '2']
  | .instruction => ['3', '6']
  | .illegal => ['1', ';', '3', '1']

/-- An escape sequence. -/
def escape (code : List Char) : List Char := '\x1b' :: '[' :: code ++ ['m']

/-- Text in a colour, or as it is. -/
def paint (coloured : Bool) (colour : Colour) (text : List Char) : List Char :=
  if coloured then escape colour.code ++ text ++ escape ['0'] else text

/-! ## Columns -/

/-- The instruction bytes, a blank between two. -/
def bytesText (bytes : List UInt8) : List Char :=
  [' '].intercalate (bytes.map Text.byteDigits)

/-- The registers and the cycle count. -/
def stateText (r : Registers) (cycles : UInt64) : List Char :=
  "A:".toList ++ Text.byteDigits r.a ++ " X:".toList ++ Text.byteDigits r.x
    ++ " Y:".toList ++ Text.byteDigits r.y ++ " P:".toList ++ Text.byteDigits r.status.toByte
    ++ " SP:".toList ++ Text.byteDigits r.sp ++ " CYC:".toList ++ Nat.toDigits 10 cycles.toNat

/-- The colour of the assembler text at an address. -/
def colourAt (m : Memory) (pc : UInt16) : Colour :=
  if (m.instructionAt pc).isSome then .instruction else .illegal

/-- The line for the instruction at PC. -/
def line (m : Memory) (r : Registers) (cycles : UInt64) (coloured : Bool) : List Char :=
  paint coloured .address (Text.wordDigits r.pc) ++ [' ', ' ']
    ++ Text.padded 8 (bytesText (m.bytesAt r.pc)) ++ [' ', ' ']
    ++ paint coloured (colourAt m r.pc) (Text.padded 32 (m.disassemble r.pc))
    ++ stateText r cycles

end NesCore.TraceLine

namespace NesCore

/-- The trace line of a processor, without colour. -/
def Cpu.traceLine (c : Cpu) : List Char := TraceLine.line c.memory c.toRegisters c.cycles false

end NesCore
