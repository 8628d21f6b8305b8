import NesCore.Alu
import NesCore.Instruction.Basic

/-!
# What a mnemonic does

The mnemonics fall into families of operations with a register, a flag or a kind as parameter.
`Operation.access` says whether an operation reads its operand's storage, writes it or does both.
-/

namespace NesCore

/-- A byte register of the processor. -/
inductive Register
  | a
  | x
  | y
  | sp
  deriving DecidableEq, Repr

/-- A step to the next or to the previous byte value, with wrap. -/
inductive Direction
  | up
  | down
  deriving DecidableEq, Repr

/-- The neighbour of a byte. -/
def Direction.next (direction : Direction) (v : UInt8) : UInt8 :=
  match direction with
  | .up => v + 1
  | .down => v - 1

/-- A family of instructions, with what tells its members apart. -/
inductive Operation
  /-- A register takes the operand. -/
  | load (register : Register)
  /-- The operand's storage takes a register. -/
  | store (register : Register)
  /-- A register takes the value of another one. -/
  | transfer (source target : Register)
  | pushAccumulator
  | pushStatus
  | pullAccumulator
  | pullStatus
  | add
  | subtract
  | logic (kind : Alu.Logic)
  /-- Flags of the difference between a register and the operand. -/
  | compare (register : Register)
  /-- Flags of the operand's two high bits and of its conjunction with the accumulator. -/
  | bitTest
  | shift (kind : Alu.Shift)
  | stepOperand (direction : Direction)
  | stepRegister (register : Register) (direction : Direction)
  /-- Jumps if the flag has the given value. -/
  | branch (flag : Flag) (value : Bool)
  | jump
  | call
  | returnFromCall
  | returnFromInterrupt
  | brk
  | setFlag (flag : Flag) (value : Bool)
  | nop
  deriving DecidableEq, Repr

/-- The data accesses of an operation to its operand. -/
inductive Access
  | none
  | read
  | write
  /-- One read, then one write to the same place. -/
  | modify
  deriving DecidableEq, Repr

/-- What an operation does to its operand's storage. -/
def Operation.access : Operation → Access
  | .load _ | .add | .subtract | .logic _ | .compare _ | .bitTest => .read
  | .store _ => .write
  | .shift _ | .stepOperand _ => .modify
  | _ => .none

/-- The family and parameters of a mnemonic. -/
def Mnemonic.operation : Mnemonic → Operation
  | .adc => .add
  | .and => .logic .and
  | .asl => .shift .left
  | .bcc => .branch .carry false
  | .bcs => .branch .carry true
  | .beq => .branch .zero true
  | .bit => .bitTest
  | .bmi => .branch .negative true
  | .bne => .branch .zero false
  | .bpl => .branch .negative false
  | .brk => .brk
  | .bvc => .branch .overflow false
  | .bvs => .branch .overflow true
  | .clc => .setFlag .carry false
  | .cld => .setFlag .decimal false
  | .cli => .setFlag .interruptDisable false
  | .clv => .setFlag .overflow false
  | .cmp => .compare .a
  | .cpx => .compare .x
  | .cpy => .compare .y
  | .dec => .stepOperand .down
  | .dex => .stepRegister .x .down
  | .dey => .stepRegister .y .down
  | .eor => .logic .exclusiveOr
  | .inc => .stepOperand .up
  | .inx => .stepRegister .x .up
  | .iny => .stepRegister .y .up
  | .jmp => .jump
  | .jsr => .call
  | .lda => .load .a
  | .ldx => .load .x
  | .ldy => .load .y
  | .lsr => .shift .right
  | .nop => .nop
  | .ora => .logic .or
  | .pha => .pushAccumulator
  | .php => .pushStatus
  | .pla => .pullAccumulator
  | .plp => .pullStatus
  | .rol => .shift .rotateLeft
  | .ror => .shift .rotateRight
  | .rti => .returnFromInterrupt
  | .rts => .returnFromCall
  | .sbc => .subtract
  | .sec => .setFlag .carry true
  | .sed => .setFlag .decimal true
  | .sei => .setFlag .interruptDisable true
  | .sta => .store .a
  | .stx => .store .x
  | .sty => .store .y
  | .tax => .transfer .a .x
  | .tay => .transfer .a .y
  | .tsx => .transfer .sp .x
  | .txa => .transfer .x .a
  | .txs => .transfer .x .sp
  | .tya => .transfer .y .a

end NesCore
