/-!
# Mnemonics and addressing modes

The 56 documented mnemonics with their names, and the 13 ways in which an instruction finds its
operand with the number of bytes each takes.
-/

namespace NesCore

/-- A documented mnemonic. -/
inductive Mnemonic
  | adc | and | asl | bcc | bcs | beq | bit | bmi | bne | bpl | brk | bvc | bvs | clc
  | cld | cli | clv | cmp | cpx | cpy | dec | dex | dey | eor | inc | inx | iny | jmp
  | jsr | lda | ldx | ldy | lsr | nop | ora | pha | php | pla | plp | rol | ror | rti
  | rts | sbc | sec | sed | sei | sta | stx | sty | tax | tay | tsx | txa | txs | tya
  deriving DecidableEq, Repr

/-- The three letters of a mnemonic. -/
def Mnemonic.name : Mnemonic → String
  | .adc => "ADC" | .and => "AND" | .asl => "ASL" | .bcc => "BCC" | .bcs => "BCS"
  | .beq => "BEQ" | .bit => "BIT" | .bmi => "BMI" | .bne => "BNE" | .bpl => "BPL"
  | .brk => "BRK" | .bvc => "BVC" | .bvs => "BVS" | .clc => "CLC" | .cld => "CLD"
  | .cli => "CLI" | .clv => "CLV" | .cmp => "CMP" | .cpx => "CPX" | .cpy => "CPY"
  | .dec => "DEC" | .dex => "DEX" | .dey => "DEY" | .eor => "EOR" | .inc => "INC"
  | .inx => "INX" | .iny => "INY" | .jmp => "JMP" | .jsr => "JSR" | .lda => "LDA"
  | .ldx => "LDX" | .ldy => "LDY" | .lsr => "LSR" | .nop => "NOP" | .ora => "ORA"
  | .pha => "PHA" | .php => "PHP" | .pla => "PLA" | .plp => "PLP" | .rol => "ROL"
  | .ror => "ROR" | .rti => "RTI" | .rts => "RTS" | .sbc => "SBC" | .sec => "SEC"
  | .sed => "SED" | .sei => "SEI" | .sta => "STA" | .stx => "STX" | .sty => "STY"
  | .tax => "TAX" | .tay => "TAY" | .tsx => "TSX" | .txa => "TXA" | .txs => "TXS"
  | .tya => "TYA"

/-- How an instruction finds its operand. -/
inductive Mode
  | implied
  | accumulator
  | immediate
  | zeroPage
  | zeroPageX
  | zeroPageY
  | absolute
  | absoluteX
  | absoluteY
  /-- A pointer to the target, for `JMP` only. -/
  | indirect
  /-- A page zero pointer found by adding X to the operand byte. -/
  | indirectX
  /-- A page zero pointer, to whose word Y is added. -/
  | indirectY
  /-- A signed displacement from the following instruction. -/
  | relative
  deriving DecidableEq, Repr

namespace Mode

/-- The name of a mode in messages. -/
def name : Mode → String
  | .implied => "Implied"
  | .accumulator => "Accumulator"
  | .immediate => "Immediate"
  | .zeroPage => "ZeroPage"
  | .zeroPageX => "ZeroPageX"
  | .zeroPageY => "ZeroPageY"
  | .absolute => "Absolute"
  | .absoluteX => "AbsoluteX"
  | .absoluteY => "AbsoluteY"
  | .indirect => "Indirect"
  | .indirectX => "IndirectX"
  | .indirectY => "IndirectY"
  | .relative => "Relative"

/-- The number of bytes after the opcode. -/
def operandLength : Mode → Nat
  | .implied | .accumulator => 0
  | .immediate | .zeroPage | .zeroPageX | .zeroPageY | .indirectX | .indirectY | .relative => 1
  | .absolute | .absoluteX | .absoluteY | .indirect => 2

/-- The modes that add an index to a word, and so may land on the next page. -/
def indexesWord : Mode → Bool
  | .absoluteX | .absoluteY | .indirectY => true
  | _ => false

theorem operandLength_le (mode : Mode) : mode.operandLength ≤ 2 := by cases mode <;> decide

end Mode

end NesCore
