import NesCore.Proofs.TraceDecoding

/-!
# What a trace line holds

The text of a trace line is printable (`printable_line`), so the escape characters of a coloured
line are those of its colours, and without the escape sequences it is the plain line
(`withoutEscapes_line`). Bytes and registers have columns of a fixed width in hexadecimal and the
cycle count ends the line in decimal, so all of them can be read off (`shown_of_line_eq`), and the
assembler text adds nothing to the bytes (`line_congr_of_bytesAt`).

Main statement: `line_loses_nothing`.
-/

namespace NesCore

/-! ## Printable text -/

namespace Text

/-- The text has no control characters. -/
def Printable (text : List Char) : Prop := ∀ ch ∈ text, 0x20 ≤ ch.toNat

instance (text : List Char) : Decidable (Printable text) := List.decidableBAll _ text

theorem printable_append {s t : List Char} : Printable (s ++ t) ↔ Printable s ∧ Printable t :=
  List.forall_mem_append

theorem printable_cons {ch : Char} {text : List Char} :
    Printable (ch :: text) ↔ 0x20 ≤ ch.toNat ∧ Printable text :=
  List.forall_mem_cons

theorem printable_nil : Printable [] := nofun

theorem Printable.not_mem {text : List Char} (h : Printable text) {control : Char}
    (hcontrol : control.toNat < 0x20) : control ∉ text := fun hmem =>
  Nat.not_lt.2 (h control hmem) hcontrol

theorem blank_lt_hexDigit {n : Nat} (h : n < 16) : 0x20 < (hexDigit n).toNat :=
  (by decide : ∀ n < 16, 0x20 < (hexDigit n).toNat) n h

theorem blank_lt_of_mem_byteDigits {b : UInt8} {ch : Char} (h : ch ∈ byteDigits b) :
    0x20 < ch.toNat := by
  have hb := b.toNat_lt
  simp only [byteDigits, List.mem_cons, List.not_mem_nil, or_false] at h
  obtain rfl | rfl := h
  · exact blank_lt_hexDigit (by omega)
  · exact blank_lt_hexDigit (by omega)

theorem printable_byteDigits (b : UInt8) : Printable (byteDigits b) := fun _ hch =>
  Nat.le_of_lt (blank_lt_of_mem_byteDigits hch)

theorem printable_wordDigits (w : UInt16) : Printable (wordDigits w) := by
  have hw := w.toNat_lt
  have hdigit (n : Nat) (hn : n < 16) : 0x20 ≤ (hexDigit n).toNat :=
    Nat.le_of_lt (blank_lt_hexDigit hn)
  simp only [wordDigits, printable_cons]
  exact ⟨hdigit _ (by omega), hdigit _ (by omega), hdigit _ (by omega), hdigit _ (by omega),
    printable_nil⟩

theorem printable_toDigits (n : Nat) : Printable (Nat.toDigits 10 n) := fun ch hch => by
  have hdigit := Nat.isDigit_of_mem_toDigits (by decide) (by decide) hch
  have hzero : '0'.toNat ≤ ch.toNat := (Char.isDigit_iff_toNat.1 hdigit).1
  exact Nat.le_trans (by decide) hzero

theorem printable_padded {text : List Char} (h : Printable text) (width : Nat) :
    Printable (padded width text) := by
  refine printable_append.2 ⟨h, fun ch hch => ?_⟩
  rw [List.eq_of_mem_replicate hch]
  decide

end Text

open Text in
theorem Instruction.printable_text (ins : Instruction) (pc : UInt16) (first second : UInt8) :
    Printable (ins.text pc first second) := by
  have hname : Printable ins.mnemonic.name.toList := by
    cases ins.mnemonic <;> decide +kernel
  have hoperand : Printable (operandText ins.mode pc first second) := by
    unfold operandText
    cases ins.mode <;>
      simp [printable_cons, printable_append, printable_nil, printable_byteDigits,
        printable_wordDigits]
  unfold text
  dsimp only
  split
  · exact printable_append.2 ⟨hname, printable_nil⟩
  · exact printable_append.2 ⟨hname, printable_cons.2 ⟨by decide, hoperand⟩⟩

open Text in
theorem Memory.printable_disassemble (m : Memory) (pc : UInt16) : Printable (m.disassemble pc) := by
  unfold disassemble
  split
  · exact Instruction.printable_text _ _ _ _
  · decide

namespace TraceLine

open Text

theorem bytesText_cons_cons (b b' : UInt8) (rest : List UInt8) :
    bytesText (b :: b' :: rest) = byteDigits b ++ ' ' :: bytesText (b' :: rest) := by
  unfold bytesText
  rw [List.map_cons, List.map_cons, List.intercalate_cons_cons, List.append_assoc]
  rfl

theorem bytesText_singleton (b : UInt8) : bytesText [b] = byteDigits b :=
  List.intercalate_singleton

theorem printable_bytesText (bytes : List UInt8) : Printable (bytesText bytes) := by
  induction bytes with
  | nil => exact printable_nil
  | cons b rest ih =>
    cases rest with
    | nil =>
      rw [bytesText_singleton]
      exact printable_byteDigits b
    | cons b' rest =>
      rw [bytesText_cons_cons]
      exact printable_append.2 ⟨printable_byteDigits b, printable_cons.2 ⟨by decide, ih⟩⟩

theorem printable_stateText (r : Registers) (cycles : UInt64) : Printable (stateText r cycles) := by
  have hlabels : ∀ label ∈ ["A:", " X:", " Y:", " P:", " SP:", " CYC:"],
      Printable label.toList := by decide +kernel
  simp only [List.forall_mem_cons] at hlabels
  obtain ⟨ha, hx, hy, hp, hsp, hcyc, -⟩ := hlabels
  have hbyte := printable_byteDigits
  have hcycles := printable_toDigits cycles.toNat
  unfold stateText
  simp only [printable_append]
  exact ⟨⟨⟨⟨⟨⟨⟨⟨⟨⟨⟨ha, hbyte r.a⟩, hx⟩, hbyte r.x⟩, hy⟩, hbyte r.y⟩, hp⟩, hbyte r.status.toByte⟩,
    hsp⟩, hbyte r.sp⟩, hcyc⟩, hcycles⟩

/-- A line without colour has no control characters. -/
theorem printable_line (m : Memory) (r : Registers) (cycles : UInt64) :
    Printable (line m r cycles false) := by
  have hblanks : Printable [' ', ' '] := by decide
  have hbytes := printable_padded (printable_bytesText (m.bytesAt r.pc)) 8
  have htext := printable_padded (m.printable_disassemble r.pc) 32
  unfold line
  simp only [printable_append]
  exact ⟨⟨⟨⟨⟨printable_wordDigits r.pc, hblanks⟩, hbytes⟩, hblanks⟩, htext⟩,
    printable_stateText r cycles⟩

end TraceLine

/-! ## Columns read back -/

namespace Text

theorem toDigits_injective : Function.Injective (Nat.toDigits 10) := by
  intro m n h
  calc m = Nat.ofDigitChars 10 (Nat.toDigits 10 m) 0 := Nat.ofDigitChars_ten_toDigits.symm
    _ = Nat.ofDigitChars 10 (Nat.toDigits 10 n) 0 := by rw [h]
    _ = n := Nat.ofDigitChars_ten_toDigits

/-- The text without its blanks. -/
def solid (text : List Char) : List Char := text.filter (· != ' ')

theorem solid_append (s t : List Char) : solid (s ++ t) = solid s ++ solid t :=
  List.filter_append s t

theorem solid_padded (width : Nat) (text : List Char) : solid (padded width text) = solid text := by
  have hblanks : solid (List.replicate (width - text.length) ' ') = [] :=
    List.filter_replicate_of_neg (by decide)
  rw [padded, solid_append, hblanks, List.append_nil]

theorem solid_byteDigits (b : UInt8) : solid (byteDigits b) = byteDigits b :=
  List.filter_eq_self.2 fun _ hch => bne_iff_ne.2 fun heq =>
    Nat.lt_irrefl _ (heq ▸ blank_lt_of_mem_byteDigits hch)

theorem flatMap_byteDigits_injective :
    Function.Injective fun bytes : List UInt8 => bytes.flatMap byteDigits := by
  intro bytes bytes' h
  induction bytes generalizing bytes' with
  | nil =>
    cases bytes' with
    | nil => rfl
    | cons b' rest' => cases h
  | cons b rest ih =>
    cases bytes' with
    | nil => cases h
    | cons b' rest' =>
      have h : byteDigits b ++ rest.flatMap byteDigits =
          byteDigits b' ++ rest'.flatMap byteDigits := h
      obtain ⟨hdigits, hrest⟩ := List.append_inj h rfl
      rw [byteDigits_injective hdigits, ih hrest]

/-- The last byte of a text can be told from what comes before it. -/
theorem append_byteDigits_inj {s t : List Char} {a b : UInt8}
    (h : s ++ byteDigits a = t ++ byteDigits b) : s = t ∧ a = b := by
  obtain ⟨hbefore, hdigits⟩ := List.append_inj' h rfl
  exact ⟨hbefore, byteDigits_injective hdigits⟩

end Text

theorem Status.toByte_injective : Function.Injective toByte :=
  Function.LeftInverse.injective ofByte_toByte

namespace TraceLine

open Text

theorem solid_bytesText (bytes : List UInt8) :
    solid (bytesText bytes) = bytes.flatMap byteDigits := by
  induction bytes with
  | nil => rfl
  | cons b rest ih =>
    cases rest with
    | nil =>
      rw [bytesText_singleton, solid_byteDigits]
      exact (List.append_nil _).symm
    | cons b' rest =>
      rw [bytesText_cons_cons, solid_append, solid_byteDigits, List.flatMap_cons, ← ih]
      rfl

/-- The bytes can be read off their column. -/
theorem bytesText_column_inj {width : Nat} {bytes bytes' : List UInt8}
    (h : padded width (bytesText bytes) = padded width (bytesText bytes')) : bytes = bytes' := by
  have hdigits := congrArg solid h
  rw [solid_padded, solid_padded, solid_bytesText, solid_bytesText] at hdigits
  exact flatMap_byteDigits_injective hdigits

/-- Registers other than PC and the cycle count can be read off the end of a line. -/
theorem stateText_inj {r s : Registers} {cycles cycles' : UInt64}
    (h : stateText r cycles = stateText s cycles') :
    r.a = s.a ∧ r.x = s.x ∧ r.y = s.y ∧ r.status = s.status ∧ r.sp = s.sp ∧ cycles = cycles' := by
  unfold stateText at h
  obtain ⟨h, hcycles⟩ := List.append_inj h (by simp only [List.length_append, length_byteDigits])
  obtain ⟨h, hsp⟩ := append_byteDigits_inj (List.append_cancel_right h)
  obtain ⟨h, hp⟩ := append_byteDigits_inj (List.append_cancel_right h)
  obtain ⟨h, hy⟩ := append_byteDigits_inj (List.append_cancel_right h)
  obtain ⟨h, hx⟩ := append_byteDigits_inj (List.append_cancel_right h)
  obtain ⟨-, ha⟩ := append_byteDigits_inj (List.append_cancel_right h)
  exact ⟨ha, hx, hy, Status.toByte_injective hp, hsp,
    UInt64.toNat_inj.1 (toDigits_injective hcycles)⟩

/-- Behind its columns a line without colour has the registers. -/
theorem drop_line (m : Memory) (r : Registers) (cycles : UInt64) :
    (line m r cycles false).drop 48 = stateText r cycles := by
  have hbytes := m.lengthAt_le r.pc
  have htext := m.length_disassemble_le r.pc
  refine List.drop_left' ?_
  simp only [paint, List.length_append, length_wordDigits, length_padded, length_bytesText,
    Memory.length_bytesAt, List.length_cons, List.length_nil, Bool.false_eq_true, if_false]
  omega

variable {m n : Memory} {r s : Registers} {cycles cycles' : UInt64}

/-- What a line shows can be read off it. -/
theorem shown_of_line_eq (h : line m r cycles false = line n s cycles' false) :
    m.bytesAt r.pc = n.bytesAt s.pc ∧ r = s ∧ cycles = cycles' := by
  have hr := shows_line m r cycles
  have hs := shows_line n s cycles'
  rw [h] at hr
  have hstate : stateText r cycles = stateText s cycles' := by
    rw [← drop_line m, h, drop_line]
  have hpc : r.pc = s.pc := wordDigits_injective (hr.address.symm.trans hs.address)
  obtain ⟨ha, hx, hy, hp, hsp, hcycles⟩ := stateText_inj hstate
  refine ⟨bytesText_column_inj (hr.bytes.symm.trans hs.bytes), ?_, hcycles⟩
  cases r
  cases s
  simp_all

end TraceLine

/-! ## The text of shown bytes -/

/-- The text of an instruction is made of its own bytes. -/
theorem Instruction.text_congr (ins : Instruction) (pc : UInt16)
    {first second first' second' : UInt8} (hfirst : 0 < ins.mode.operandLength → first = first')
    (hsecond : 1 < ins.mode.operandLength → second = second') :
    ins.text pc first second = ins.text pc first' second' := by
  have hoperand :
      operandText ins.mode pc first second = operandText ins.mode pc first' second' := by
    cases hmode : ins.mode with
    | implied | accumulator => rfl
    | immediate | zeroPage | zeroPageX | zeroPageY | indirectX | indirectY | relative =>
      rw [hmode] at hfirst
      rw [hfirst (by decide)]
      rfl
    | absolute | absoluteX | absoluteY | indirect =>
      rw [hmode] at hfirst hsecond
      rw [hfirst (by decide), hsecond (by decide)]
  unfold text
  rw [hoperand]

namespace Memory

variable {m n : Memory} {pc : UInt16}

theorem peek_of_bytesAt_eq (h : m.bytesAt pc = n.bytesAt pc) {i : Nat} (hi : i < m.lengthAt pc) :
    m.peek (pc + UInt16.ofNat i) = n.peek (pc + UInt16.ofNat i) := by
  have hm : i < (m.bytesAt pc).length := by rwa [length_bytesAt]
  have hn : i < (n.bytesAt pc).length := h ▸ hm
  rw [← getElem_bytesAt hm, ← getElem_bytesAt hn]
  exact List.getElem_of_eq h hm

theorem lengthAt_pos (m : Memory) (pc : UInt16) : 0 < m.lengthAt pc := by
  unfold lengthAt
  split
  · exact Nat.lt_of_lt_of_le Nat.one_pos (Nat.le_add_right 1 _)
  · exact Nat.one_pos

theorem instructionAt_of_bytesAt_eq (h : m.bytesAt pc = n.bytesAt pc) :
    m.instructionAt pc = n.instructionAt pc := by
  have hopcode : m.peek (pc + 0) = n.peek (pc + 0) := peek_of_bytesAt_eq h (m.lengthAt_pos pc)
  rw [UInt16.add_zero] at hopcode
  rw [instructionAt, instructionAt, hopcode]

/-- The assembler text is made of the bytes shown. -/
theorem disassemble_of_bytesAt_eq (h : m.bytesAt pc = n.bytesAt pc) :
    m.disassemble pc = n.disassemble pc := by
  have hins := instructionAt_of_bytesAt_eq h
  cases hm : m.instructionAt pc with
  | none => rw [disassemble, disassemble, ← hins, hm]
  | some ins =>
    have hlength : m.lengthAt pc = 1 + ins.mode.operandLength := lengthAt_eq hm
    rw [disassemble_eq hm, disassemble_eq (hins ▸ hm)]
    exact ins.text_congr pc (fun hlt => peek_of_bytesAt_eq h (i := 1) (by omega))
      (fun hlt => peek_of_bytesAt_eq h (i := 2) (by omega))

end Memory

namespace TraceLine

open Text

variable {m n : Memory} {r : Registers}

/-- A line is made of the bytes that it shows, in colour as well. -/
theorem line_congr_of_bytesAt (h : m.bytesAt r.pc = n.bytesAt r.pc) (cycles : UInt64)
    (coloured : Bool) : line m r cycles coloured = line n r cycles coloured := by
  have hcolour : colourAt m r.pc = colourAt n r.pc := by
    rw [colourAt, colourAt, Memory.instructionAt_of_bytesAt_eq h]
  unfold line
  rw [h, hcolour, Memory.disassemble_of_bytesAt_eq h]

/-! ## Escape sequences -/

/-- The text without its escape sequences, each of them an escape character with a bracket and what
follows up to an `m`. The flag tells that the text begins within one. -/
def withoutEscapes : Bool → List Char → List Char
  | _, [] => []
  | true, ch :: rest => withoutEscapes (ch != 'm') rest
  | false, '\x1b' :: '[' :: rest => withoutEscapes true rest
  | false, ch :: rest => ch :: withoutEscapes false rest

theorem withoutEscapes_cons {ch : Char} (h : '\x1b' ≠ ch) (rest : List Char) :
    withoutEscapes false (ch :: rest) = ch :: withoutEscapes false rest :=
  withoutEscapes.eq_4 _ _ fun _ heq _ => h heq.symm

theorem withoutEscapes_append {text : List Char} (h : Printable text) (rest : List Char) :
    withoutEscapes false (text ++ rest) = text ++ withoutEscapes false rest := by
  induction text with
  | nil => rfl
  | cons ch text ih =>
    have hch : '\x1b' ≠ ch := List.ne_of_not_mem_cons (h.not_mem (by decide))
    rw [List.cons_append, withoutEscapes_cons hch, ih (printable_cons.1 h).2]
    rfl

/-- An escape sequence ends with the first `m`. -/
theorem withoutEscapes_escape {code : List Char} (h : 'm' ∉ code) (rest : List Char) :
    withoutEscapes false (escape code ++ rest) = withoutEscapes false rest := by
  have hinside : withoutEscapes true (code ++ 'm' :: rest) = withoutEscapes false rest := by
    induction code with
    | nil => rfl
    | cons ch code ih =>
      obtain ⟨hch, hcode⟩ := not_or.1 (List.mem_cons.not.1 h)
      have hgo : (ch != 'm') = true := bne_iff_ne.2 fun heq => hch heq.symm
      rw [List.cons_append, withoutEscapes, hgo, ih hcode]
  have hescape : escape code ++ rest = '\x1b' :: '[' :: (code ++ 'm' :: rest) := by
    simp [escape]
  rw [hescape]
  exact hinside

theorem withoutEscapes_paint {text : List Char} (h : Printable text) (colour : Colour)
    (rest : List Char) :
    withoutEscapes false (paint true colour text ++ rest) = text ++ withoutEscapes false rest := by
  have hcode : 'm' ∉ colour.code := by cases colour <;> decide
  unfold paint
  rw [if_pos rfl, List.append_assoc, List.append_assoc, withoutEscapes_escape hcode,
    withoutEscapes_append h, withoutEscapes_escape (by decide)]

/-- A coloured line is the plain line with escape sequences. -/
theorem withoutEscapes_line (m : Memory) (r : Registers) (cycles : UInt64) :
    withoutEscapes false (line m r cycles true) = line m r cycles false := by
  have hblanks : Printable [' ', ' '] := by decide
  have hbytes := printable_padded (printable_bytesText (m.bytesAt r.pc)) 8
  have htext := printable_padded (m.printable_disassemble r.pc) 32
  have hstate : withoutEscapes false (stateText r cycles) = stateText r cycles := by
    have happend := withoutEscapes_append (printable_stateText r cycles) []
    rwa [List.append_nil, withoutEscapes, List.append_nil] at happend
  unfold line
  simp only [List.append_assoc]
  rw [withoutEscapes_paint (printable_wordDigits r.pc), withoutEscapes_append hblanks,
    withoutEscapes_append hbytes, withoutEscapes_append hblanks, withoutEscapes_paint htext, hstate]
  rfl

/-! ## Main statement -/

/-- **Trace lines keep their columns and lose nothing.** Whatever the instruction, a line without
colour has the address in columns 0-3, the instruction bytes from column 6, the assembler text from
column 16 and the registers from column 48 on. Two such lines are equal exactly if the addresses,
the bytes shown, the registers and the cycle counts are. And a coloured line without its escape
sequences is the line without colour. -/
theorem line_loses_nothing (m n : Memory) (r s : Registers) (cycles cycles' : UInt64) :
    let plain := line m r cycles false
    Shows plain r.pc (m.bytesAt r.pc) (m.disassemble r.pc) ∧
    plain.drop 48 = stateText r cycles ∧ ['A', ':'] <+: plain.drop 48 ∧
    (plain = line n s cycles' false ↔ r.pc = s.pc ∧ m.bytesAt r.pc = n.bytesAt s.pc ∧ r.a = s.a ∧
      r.x = s.x ∧ r.y = s.y ∧ r.status = s.status ∧ r.sp = s.sp ∧ cycles = cycles') ∧
    withoutEscapes false (line m r cycles true) = plain := by
  intro plain
  have hstate : plain.drop 48 = stateText r cycles := drop_line m r cycles
  refine ⟨shows_line m r cycles, hstate, ?label, ⟨fun h => ?read, fun h => ?made⟩,
    withoutEscapes_line m r cycles⟩
  case label =>
    rw [hstate]
    unfold stateText
    simp only [List.append_assoc]
    exact List.prefix_append _ _
  case read =>
    obtain ⟨hbytes, rfl, hcycles⟩ := shown_of_line_eq h
    exact ⟨rfl, hbytes, rfl, rfl, rfl, rfl, rfl, hcycles⟩
  case made =>
    obtain ⟨hpc, hbytes, ha, hx, hy, hp, hsp, rfl⟩ := h
    obtain rfl : r = s := by
      cases r
      cases s
      simp_all
    exact line_congr_of_bytesAt hbytes cycles false

/-- The line of a jump, the first instruction of a program at `$C000`. -/
example : line ((Memory.blank .flat).load 0xC000 [0x4C, 0xF5, 0xC5])
      ⟨0, 0, 0, 0xFD, 0xC000, Status.ofByte 0x24⟩ 7 false =
    "C000  4C F5 C5  JMP $C5F5                       A:00 X:00 Y:00 P:24 SP:FD CYC:7".toList := by
  decide +kernel

end TraceLine

end NesCore
