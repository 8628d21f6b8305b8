import NesCore.Disassembly
import NesCore.Proofs.Addressing

/-!
# Assembler text

The text of an instruction is its mnemonic and its operand. Operands of two modes can be told apart
by their outline, in which all digits look the same (`outline_operandText`), except for an absolute
address and the target of a branch, and no mnemonic has both. So no two rows of the opcode table
share mnemonic and outline (`find_outline`), and the digits of an operand give its bytes back
(`operandText_inj`).

Main statement: `disassembly_determines_bytes`.
-/

namespace NesCore

/-! ## Digits -/

namespace Text

theorem hexDigit_inj {a b : Nat} (ha : a < 16) (hb : b < 16) (h : hexDigit a = hexDigit b) :
    a = b :=
  (by decide : ∀ a < 16, ∀ b < 16, hexDigit a = hexDigit b → a = b) a ha b hb h

theorem byteDigits_injective : Function.Injective byteDigits := by
  intro a b h
  have ha := a.toNat_lt
  have hb := b.toNat_lt
  simp only [byteDigits, List.cons.injEq, and_true] at h
  have hhigh := hexDigit_inj (by omega) (by omega) h.1
  have hlow := hexDigit_inj (by omega) (by omega) h.2
  exact UInt8.toNat_inj.1 (by omega)

theorem wordDigits_injective : Function.Injective wordDigits := by
  intro v w h
  have hv := v.toNat_lt
  have hw := w.toNat_lt
  simp only [wordDigits, List.cons.injEq, and_true] at h
  obtain ⟨h₁, h₂, h₃, h₄⟩ := h
  have hfirst := hexDigit_inj (by omega) (by omega) h₁
  have hsecond := hexDigit_inj (by omega) (by omega) h₂
  have hthird := hexDigit_inj (by omega) (by omega) h₃
  have hlast := hexDigit_inj (by omega) (by omega) h₄
  exact UInt16.toNat_inj.1 (by omega)

/-- The text with a zero for each hexadecimal digit. -/
def outline (text : List Char) : List Char :=
  text.map fun ch => if ch ∈ (List.range 16).map hexDigit then '0' else ch

theorem outline_cons (ch : Char) (text : List Char) :
    outline (ch :: text) =
      (if ch ∈ (List.range 16).map hexDigit then '0' else ch) :: outline text := rfl

theorem outline_append (s t : List Char) : outline (s ++ t) = outline s ++ outline t :=
  List.map_append

theorem outline_hexDigit {n : Nat} (h : n < 16) (text : List Char) :
    outline (hexDigit n :: text) = '0' :: outline text := by
  have hmem : hexDigit n ∈ (List.range 16).map hexDigit :=
    List.mem_map_of_mem (List.mem_range.2 h)
  rw [outline_cons, if_pos hmem]

theorem outline_byteDigits (b : UInt8) : outline (byteDigits b) = ['0', '0'] := by
  have hb := b.toNat_lt
  rw [byteDigits, outline_hexDigit (by omega), outline_hexDigit (by omega)]
  rfl

theorem outline_wordDigits (w : UInt16) : outline (wordDigits w) = ['0', '0', '0', '0'] := by
  have hw := w.toNat_lt
  rw [wordDigits, outline_hexDigit (by omega), outline_hexDigit (by omega),
    outline_hexDigit (by omega), outline_hexDigit (by omega)]
  rfl

end Text

/-! ## Parts of an instruction -/

theorem Mnemonic.length_name (m : Mnemonic) : m.name.toList.length = 3 := by
  cases m <;> decide +kernel

/-- Two displacements from one base lead to different addresses. -/
theorem Word.displaced_injective (base : UInt16) : Function.Injective (displaced base) := by
  intro a b h
  have hleft := toNat_displaced base a
  have hright := toNat_displaced base b
  have ha := a.toNat_lt
  have hb := b.toNat_lt
  rw [h, hright, Bytes.toInt_toInt8, Bytes.toInt_toInt8] at hleft
  refine UInt8.toNat_inj.1 ?_
  split_ifs at hleft <;> omega

theorem Word.make_inj {l h l' h' : UInt8} (heq : make l h = make l' h') : l = l' ∧ h = h' :=
  ⟨by rw [← low_make l h, heq, low_make], by rw [← high_make l h, heq, high_make]⟩

namespace Instruction

open Text

variable {ins row : Instruction} {mode : Mode} {pc : UInt16} {first second first' second' : UInt8}

/-! ## Operands -/

/-- The outline of an operand is that of its mode. -/
theorem outline_operandText (mode : Mode) (pc : UInt16) (first second : UInt8) :
    outline (operandText mode pc first second) = outline (operandText mode 0 0 0) := by
  cases mode with
  | implied | accumulator => rfl
  | immediate | zeroPage | zeroPageX | zeroPageY | indirectX | indirectY =>
    simp only [operandText, List.cons_append, outline_cons, outline_append, outline_byteDigits]
  | absolute | absoluteX | absoluteY | indirect | relative =>
    simp only [operandText, List.cons_append, outline_cons, outline_append, outline_wordDigits]

/-- The text of an operand determines its bytes. -/
theorem operandText_inj
    (h : operandText mode pc first second = operandText mode pc first' second') :
    (0 < mode.operandLength → first = first') ∧ (1 < mode.operandLength → second = second') := by
  cases mode with
  | implied | accumulator => exact ⟨fun h => absurd h (by decide), fun h => absurd h (by decide)⟩
  | immediate | zeroPage | zeroPageX | zeroPageY | indirectX | indirectY =>
    have hdigits : byteDigits first = byteDigits first' := by
      simpa [operandText] using h
    exact ⟨fun _ => byteDigits_injective hdigits, fun h => absurd h (by decide)⟩
  | absolute | absoluteX | absoluteY | indirect =>
    have hdigits : wordDigits (Word.make first second) = wordDigits (Word.make first' second') := by
      simpa [operandText] using h
    obtain ⟨hfirst, hsecond⟩ := Word.make_inj (wordDigits_injective hdigits)
    exact ⟨fun _ => hfirst, fun _ => hsecond⟩
  | relative =>
    have hdigits := List.cons.inj h
    exact ⟨fun _ => Word.displaced_injective _ (wordDigits_injective hdigits.2),
      fun h => absurd h (by decide)⟩

/-! ## Instructions -/

/-- A row is found again by its mnemonic and the outline of its operand: no two rows share both. -/
theorem find_outline (h : row ∈ table) :
    (table.find? fun r => r.mnemonic.name == row.mnemonic.name &&
      outline (operandText r.mode 0 0 0) == outline (operandText row.mode 0 0 0)) = some row := by
  have key : ∀ row ∈ table, (table.find? fun r => r.mnemonic.name == row.mnemonic.name &&
      outline (operandText r.mode 0 0 0) == outline (operandText row.mode 0 0 0)) = some row := by
    decide +kernel
  exact key row h

/-- Mnemonic and operand can be told apart in the text. -/
theorem parts_of_text (h : ins.text pc first second = row.text pc first' second') :
    ins.mnemonic.name = row.mnemonic.name ∧
      operandText ins.mode pc first second = operandText row.mode pc first' second' := by
  have hlength : ins.mnemonic.name.toList.length = row.mnemonic.name.toList.length := by
    rw [Mnemonic.length_name, Mnemonic.length_name]
  obtain ⟨hname, hrest⟩ := List.append_inj h hlength
  refine ⟨String.toList_inj.1 hname, ?_⟩
  cases hs : operandText ins.mode pc first second <;>
    cases ht : operandText row.mode pc first' second' <;> simp_all

/-- The text of an instruction determines its row and its operand bytes. -/
theorem text_inj (hins : ins ∈ table) (hrow : row ∈ table)
    (h : ins.text pc first second = row.text pc first' second') :
    ins = row ∧ (0 < ins.mode.operandLength → first = first') ∧
      (1 < ins.mode.operandLength → second = second') := by
  obtain ⟨hname, hoperand⟩ := parts_of_text h
  have houtline : outline (operandText ins.mode 0 0 0) = outline (operandText row.mode 0 0 0) := by
    rw [← outline_operandText ins.mode pc first second, hoperand, outline_operandText]
  have hfound := find_outline hins
  rw [hname, houtline, find_outline hrow] at hfound
  obtain rfl : row = ins := Option.some.inj hfound
  exact ⟨rfl, operandText_inj hoperand⟩

/-- No instruction is written like a byte that is none. -/
theorem text_ne_unknown (ins : Instruction) (pc : UInt16) (first second : UInt8) :
    ins.text pc first second ≠ ['?', '?', '?'] := by
  intro h
  have hname : ins.mnemonic.name.toList = ['?', '?', '?'] := by
    rw [← List.take_left' ins.mnemonic.length_name]
    exact congrArg (List.take 3) h
  revert hname
  cases ins.mnemonic <;> decide +kernel

end Instruction

/-! ## Memory -/

namespace Memory

variable {m : Memory} {pc : UInt16} {ins : Instruction}

theorem lengthAt_eq (h : m.instructionAt pc = some ins) : m.lengthAt pc = ins.length := by
  rw [lengthAt, h]

theorem disassemble_eq (h : m.instructionAt pc = some ins) :
    m.disassemble pc = ins.text pc (m.peek (pc + 1)) (m.peek (pc + 2)) := by
  rw [disassemble, h]

/-! ## Main statement -/

/-- **The disassembly determines the instruction.** Where two memories have an instruction at an
address and its text is the same, its length and all its bytes are the same, whatever the memories
hold elsewhere and however their addresses lead to cells. A byte that is no opcode is written `???`,
and nothing else is. -/
theorem disassembly_determines_bytes (m n : Memory) (pc : UInt16) :
    ((m.instructionAt pc).isSome → (n.instructionAt pc).isSome →
      m.disassemble pc = n.disassemble pc →
      m.lengthAt pc = n.lengthAt pc ∧
        ∀ i < m.lengthAt pc, m.peek (pc + UInt16.ofNat i) = n.peek (pc + UInt16.ofNat i)) ∧
    (m.disassemble pc = ['?', '?', '?'] ↔ m.instructionAt pc = none) := by
  constructor
  · intro hm hn htext
    obtain ⟨ins, hins⟩ := Option.isSome_iff_exists.1 hm
    obtain ⟨row, hrow⟩ := Option.isSome_iff_exists.1 hn
    rw [disassemble_eq hins, disassemble_eq hrow] at htext
    obtain ⟨rfl, hfirst, hsecond⟩ := Instruction.text_inj (Instruction.mem_table_of_lookup hins)
      (Instruction.mem_table_of_lookup hrow) htext
    refine ⟨by rw [lengthAt_eq hins, lengthAt_eq hrow], fun i hi => ?_⟩
    rw [lengthAt_eq hins, Instruction.length] at hi
    have hle := ins.mode.operandLength_le
    match i with
    | 0 =>
      show m.peek (pc + 0) = n.peek (pc + 0)
      rw [UInt16.add_zero, ← Instruction.opcode_of_lookup hins, ← Instruction.opcode_of_lookup hrow]
    | 1 => exact hfirst (by omega)
    | 2 => exact hsecond (by omega)
    | i + 3 => omega
  · cases hins : m.instructionAt pc with
    | none => exact iff_of_true (by rw [disassemble, hins]) rfl
    | some ins =>
      rw [disassemble_eq hins]
      exact iff_of_false (ins.text_ne_unknown _ _ _) (Option.some_ne_none ins)

/-- `BNE $0FFF` in a mirror of work memory, under two policies and over different contents. -/
theorem disassembly_determines_bytes_of_bne :
    let m := ((blank .mirrored).load 0x07FF [0xD0]).load 0x0000 [0xFE]
    let n := ((blank .fault).load 0x07FF [0xD0, 0x1A]).load 0x0000 [0xFE, 0x2B]
    m ≠ n ∧ (m.instructionAt 0x0FFF).isSome ∧ (n.instructionAt 0x0FFF).isSome ∧
      m.disassemble 0x0FFF = "BNE $0FFF".toList ∧ m.disassemble 0x0FFF = n.disassemble 0x0FFF ∧
      m.lengthAt 0x0FFF = n.lengthAt 0x0FFF ∧
      ∀ i < m.lengthAt 0x0FFF, m.peek (0x0FFF + UInt16.ofNat i) = n.peek (0x0FFF + UInt16.ofNat i) := by
  intro m n
  have hm : (m.instructionAt 0x0FFF).isSome := by decide +kernel
  have hn : (n.instructionAt 0x0FFF).isSome := by decide +kernel
  have htext : m.disassemble 0x0FFF = n.disassemble 0x0FFF := by decide +kernel
  have hdiffer : m ≠ n := fun h => absurd (congrArg policy h) (by decide)
  exact ⟨hdiffer, hm, hn, by decide +kernel, htext,
    (disassembly_determines_bytes m n 0x0FFF).1 hm hn htext⟩

end Memory

end NesCore
