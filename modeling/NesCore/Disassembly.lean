import NesCore.Instruction.Table
import NesCore.Memory.Access

/-!
# Disassembly

The instruction at an address in assembler syntax. Memory is only peeked at, so nothing changes. A
byte that is no documented opcode is written `???`.
-/

namespace NesCore

namespace Instruction

/-- The operand of a mode with its two following bytes, for an instruction at `pc`. -/
def operandText (mode : Mode) (pc : UInt16) (first second : UInt8) : List Char :=
  let byte := '$' :: Text.byteDigits first
  let word := '$' :: Text.wordDigits (Word.make first second)
  match mode with
  | .implied => []
  | .accumulator => ['A']
  | .immediate => '#' :: byte
  | .zeroPage => byte
  | .zeroPageX => byte ++ [',', 'X']
  | .zeroPageY => byte ++ [',', 'Y']
  | .absolute => word
  | .absoluteX => word ++ [',', 'X']
  | .absoluteY => word ++ [',', 'Y']
  | .indirect => '(' :: word ++ [')']
  | .indirectX => '(' :: byte ++ [',', 'X', ')']
  | .indirectY => '(' :: byte ++ [')', ',', 'Y']
  | .relative => '$' :: Text.wordDigits (Word.displaced (pc + 2) first)

/-- An instruction at `pc` with the two bytes after its opcode. -/
def text (ins : Instruction) (pc : UInt16) (first second : UInt8) : List Char :=
  let operand := operandText ins.mode pc first second
  ins.mnemonic.name.toList ++ (if operand.isEmpty then [] else ' ' :: operand)

end Instruction

namespace Memory

/-- The instruction at an address, if the byte there is a documented opcode. -/
def instructionAt (m : Memory) (pc : UInt16) : Option Instruction :=
  Instruction.lookup (m.peek pc)

/-- The number of bytes shown for an address: those of the instruction, one for any other byte. -/
def lengthAt (m : Memory) (pc : UInt16) : Nat :=
  match m.instructionAt pc with
  | some ins => ins.length
  | none => 1

/-- The bytes shown for an address. -/
def bytesAt (m : Memory) (pc : UInt16) : List UInt8 :=
  (List.range (m.lengthAt pc)).map fun i => m.peek (pc + UInt16.ofNat i)

/-- The instruction at an address in assembler syntax. -/
def disassemble (m : Memory) (pc : UInt16) : List Char :=
  match m.instructionAt pc with
  | some ins => ins.text pc (m.peek (pc + 1)) (m.peek (pc + 2))
  | none => ['?', '?', '?']

/-- The instructions from an address on, each with its own address. -/
def listing (m : Memory) (pc : UInt16) : Nat → List (UInt16 × List Char)
  | 0 => []
  | n + 1 => (pc, m.disassemble pc) :: m.listing (pc + UInt16.ofNat (m.lengthAt pc)) n

end Memory

end NesCore
