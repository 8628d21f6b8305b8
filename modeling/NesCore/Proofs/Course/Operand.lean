import NesCore.Cpu.Operand
import NesCore.Proofs.Course.Stack

/-!
# The course of operands

What finding, reading and writing an operand demands, with PC on the byte after the opcode:
the operand's bytes, then the two bytes of the pointer of an indirect mode. `operand` reads the
address off memory; `follows_resolve` shows that `resolve` finds the same one.
-/

namespace NesCore

@[simp] theorem Word.nextInPage_zeroPage (b : UInt8) :
    Word.nextInPage (Word.zeroPage b) = Word.zeroPage (b + 1) := by
  have hlow : Word.low (Word.zeroPage b) = b := by
    apply UInt8.toNat_inj.1
    simp
  have hhigh : Word.high (Word.zeroPage b) = 0 := by
    apply UInt8.toNat_inj.1
    have := b.toNat_lt
    simp
    omega
  rw [Word.nextInPage, hlow, hhigh]
  rfl

theorem Word.add_one_add_one (w : UInt16) : w + 1 + 1 = w + 2 := UInt16.add_assoc w 1 1

namespace Cpu

open NesCore.Action

variable {c : Cpu} {mode : Mode}

/-! ## Bytes, pointers and addresses -/

/-- The byte of a one byte operand. -/
def operandByte (c : Cpu) : UInt8 := c.memory.peek c.pc

/-- The word of a two byte operand. -/
def operandWord (c : Cpu) : UInt16 := c.peekWord c.pc (c.pc + 1)

/-- The reads of the operand's bytes, in order. -/
def operandReads (c : Cpu) (mode : Mode) : List Demand :=
  (List.range mode.operandLength).map fun i => .read (c.pc + UInt16.ofNat i)

/-- Where the pointer of an indirect mode lies. Its second byte lies in the same page. -/
def pointer? (c : Cpu) : Mode → Option UInt16
  | .indirect => some c.operandWord
  | .indirectX => some (Word.zeroPage (c.operandByte + c.x))
  | .indirectY => some (Word.zeroPage c.operandByte)
  | _ => none

/-- The reads of the pointer's bytes, low byte first. -/
def pointerReads (c : Cpu) (mode : Mode) : List Demand :=
  (c.pointer? mode).elim [] fun p => [.read p, .read (Word.nextInPage p)]

/-- The word that a pointer points to. -/
def pointee (c : Cpu) (p : UInt16) : UInt16 := c.peekWord p (Word.nextInPage p)

/-- The address that an instruction works on. -/
def effectiveAddress (c : Cpu) : Mode → Option UInt16
  | .implied | .accumulator => none
  | .immediate => some c.pc
  | .zeroPage => some (Word.zeroPage c.operandByte)
  | .zeroPageX => some (Word.zeroPage (c.operandByte + c.x))
  | .zeroPageY => some (Word.zeroPage (c.operandByte + c.y))
  | .absolute => some c.operandWord
  | .absoluteX => some (c.operandWord + Word.zeroPage c.x)
  | .absoluteY => some (c.operandWord + Word.zeroPage c.y)
  | .indirect => some (c.pointee c.operandWord)
  | .indirectX => some (c.pointee (Word.zeroPage (c.operandByte + c.x)))
  | .indirectY => some (c.pointee (Word.zeroPage c.operandByte) + Word.zeroPage c.y)
  | .relative => some (Word.displaced (c.pc + 1) c.operandByte)

/-- Indexing, or the branch if it is taken, leads to another page. -/
def crossesPage (c : Cpu) : Mode → Bool
  | .absoluteX => Word.crosses c.operandWord (c.operandWord + Word.zeroPage c.x)
  | .absoluteY => Word.crosses c.operandWord (c.operandWord + Word.zeroPage c.y)
  | .indirectY =>
    let base := c.pointee (Word.zeroPage c.operandByte)
    Word.crosses base (base + Word.zeroPage c.y)
  | .relative => Word.crosses (c.pc + 1) (Word.displaced (c.pc + 1) c.operandByte)
  | _ => false

/-- The operand that an instruction works on. -/
def operand (c : Cpu) (mode : Mode) : Operand :=
  ⟨mode, c.effectiveAddress mode, c.crossesPage mode⟩

/-! ## Finding the operand -/

theorem follows_readWord (a : UInt16) :
    Follows (readWord a) c [.read a, .read (a + 1)]
      fun w s => w = c.peekWord a (a + 1) ∧ s = c := by
  rw [readWord_eq]
  exact .read_bind (.read_bind (.pure ⟨rfl, rfl⟩))

theorem follows_readZeroPageWord (b : UInt8) :
    Follows (readZeroPageWord b) c
      [.read (Word.zeroPage b), .read (Word.nextInPage (Word.zeroPage b))]
      fun w s => w = c.pointee (Word.zeroPage b) ∧ s = c := by
  unfold pointee
  rw [Word.nextInPage_zeroPage]
  exact .read_bind (.read_bind (.pure ⟨rfl, rfl⟩))

theorem follows_readWordInPage (p : UInt16) :
    Follows (readWordInPage p) c [.read p, .read (Word.nextInPage p)]
      fun w s => w = c.pointee p ∧ s = c :=
  .read_bind (.read_bind (.pure ⟨rfl, rfl⟩))

/-- What `resolve` demands: an immediate is left for the operation to read. -/
def resolveDemands (c : Cpu) (mode : Mode) : List Demand :=
  (if mode = .immediate then [] else c.operandReads mode) ++ c.pointerReads mode

theorem resolveDemands_of_byte (c : Cpu) (h : mode.operandLength = 1) (h' : mode ≠ .immediate) :
    c.resolveDemands mode = .read c.pc :: c.pointerReads mode := by
  rw [resolveDemands, if_neg h', operandReads, h]
  simp

theorem resolveDemands_of_word (c : Cpu) (h : mode.operandLength = 2) (h' : mode ≠ .immediate) :
    c.resolveDemands mode = [.read c.pc, .read (c.pc + 1)] ++ c.pointerReads mode := by
  rw [resolveDemands, if_neg h', operandReads, h]
  simp [List.range_succ]

theorem follows_resolve (mode : Mode) :
    Follows (resolve mode) c (c.resolveDemands mode) fun operand s =>
      operand = c.operand mode ∧ s = c := by
  unfold resolve
  refine .look_bind ?_
  cases mode with
  | implied | accumulator | immediate => exact .pure ⟨rfl, rfl⟩
  | zeroPage | zeroPageX | zeroPageY | relative =>
    rw [resolveDemands_of_byte c rfl (by decide)]
    exact .read_bind (.pure ⟨rfl, rfl⟩)
  | absolute | absoluteX | absoluteY =>
    rw [resolveDemands_of_word c rfl (by decide)]
    refine .bind (follows_readWord c.pc) fun w s hw => ?_
    obtain ⟨rfl, rfl⟩ := hw
    exact .pure ⟨rfl, rfl⟩
  | indirect =>
    rw [resolveDemands_of_word c rfl (by decide)]
    refine .bind (follows_readWord c.pc) fun w s hw => ?_
    obtain ⟨rfl, rfl⟩ := hw
    refine .bind_nil (follows_readWordInPage _) fun w s hw => ?_
    obtain ⟨rfl, rfl⟩ := hw
    exact .pure ⟨rfl, rfl⟩
  | indirectX | indirectY =>
    rw [resolveDemands_of_byte c rfl (by decide)]
    refine .read_bind (.bind_nil (follows_readZeroPageWord _) fun w s hw => ?_)
    obtain ⟨rfl, rfl⟩ := hw
    exact .pure ⟨rfl, rfl⟩

/-! ## Using the operand -/

/-- The byte that an instruction finds in its operand. -/
def operandValue (c : Cpu) (mode : Mode) : UInt8 :=
  (c.effectiveAddress mode).elim c.a c.memory.peek

/-- The processor with a byte put into the operand. -/
def withOperand (c : Cpu) (mode : Mode) (v : UInt8) : Cpu :=
  (c.effectiveAddress mode).elim { c with a := v }
    fun a => { c with memory := c.memory.written a v }

/-- The read of the operand; the accumulator is not on the bus. -/
def dataRead (c : Cpu) (mode : Mode) : List Demand :=
  (c.effectiveAddress mode).elim [] fun a => [.read a]

/-- The write to the operand. -/
def dataWrite (c : Cpu) (mode : Mode) (v : UInt8) : List Demand :=
  (c.effectiveAddress mode).elim [] fun a => [.write a v]

theorem follows_readOperand (crossed : Bool) (h : mode ≠ .implied) :
    Follows (readOperand ⟨mode, c.effectiveAddress mode, crossed⟩) c (c.dataRead mode)
      fun v s => v = c.operandValue mode ∧ s = c := by
  cases mode with
  | implied => exact absurd rfl h
  | accumulator => exact .look ⟨rfl, rfl⟩
  | _ => exact .read ⟨rfl, rfl⟩

theorem follows_writeOperand (crossed : Bool) (v : UInt8) (h : mode ≠ .implied)
    (h' : mode ≠ .immediate) :
    Follows (writeOperand ⟨mode, c.effectiveAddress mode, crossed⟩ v) c (c.dataWrite mode v)
      fun _ s => s = c.withOperand mode v := by
  cases mode with
  | implied => exact absurd rfl h
  | immediate => exact absurd rfl h'
  | accumulator => exact .update rfl rfl
  | _ => exact .write rfl

theorem follows_operandAddress (crossed : Bool) (h : mode ≠ .implied)
    (h' : mode ≠ .accumulator) :
    Follows (operandAddress ⟨mode, c.effectiveAddress mode, crossed⟩) c []
      fun a s => c.effectiveAddress mode = some a ∧ s = c := by
  cases mode with
  | implied => exact absurd rfl h
  | accumulator => exact absurd rfl h'
  | _ => exact .pure ⟨rfl, rfl⟩

end Cpu

end NesCore
