import NesCore.Proofs.AssemblerText
import NesCore.Proofs.Branches
import NesCore.TraceLine

/-!
# What a trace shows of a step

A trace line is made from memory by peeking, with lengths and targets worked out for display, while
a step fetches through the bus and moves PC as it goes. `shows_line` says where a line shows what;
`read_bytesAt` that the bytes shown are those that the step fetches; `pc_of_sequential` and
`target_of_directed` that PC goes where the line says.

Main statement: `traceLine_of_step`.
-/

namespace NesCore

/-! ## Columns -/

namespace TraceLine

/-- A line has an address, instruction bytes and assembler text in its columns. -/
structure Shows (line : List Char) (address : UInt16) (bytes : List UInt8) (text : List Char) :
    Prop where
  address : line.take 4 = Text.wordDigits address
  bytes : (line.drop 6).take 8 = Text.padded 8 (bytesText bytes)
  text : (line.drop 16).take 32 = Text.padded 32 text

/-- Two digits for each byte and a blank between two. -/
theorem length_bytesText (bytes : List UInt8) :
    (bytesText bytes).length = 3 * bytes.length - 1 := by
  unfold bytesText
  induction bytes with
  | nil => rfl
  | cons b rest ih =>
    cases rest with
    | nil => rfl
    | cons b' rest =>
      rw [List.map_cons, List.map_cons, List.intercalate_cons_cons, ← List.map_cons,
        List.length_append, List.length_append, ih, Text.length_byteDigits]
      simp only [List.length_cons, List.length_nil]
      omega

end TraceLine

namespace Instruction

theorem length_operandText_le (mode : Mode) (pc : UInt16) (first second : UInt8) :
    (operandText mode pc first second).length ≤ 7 := by
  cases mode <;> simp [operandText]

/-- Assembler text fits its column. -/
theorem length_text_le (ins : Instruction) (pc : UInt16) (first second : UInt8) :
    (ins.text pc first second).length ≤ 11 := by
  have hname := ins.mnemonic.length_name
  have hoperand := length_operandText_le ins.mode pc first second
  unfold text
  dsimp only
  rw [List.length_append, hname]
  split
  · exact Nat.le_add_right 3 8
  · rw [List.length_cons]
    omega

end Instruction

namespace Memory

variable {m : Memory} {pc : UInt16}

@[simp] theorem length_bytesAt (m : Memory) (pc : UInt16) :
    (m.bytesAt pc).length = m.lengthAt pc := by
  simp [bytesAt]

theorem getElem_bytesAt {i : Nat} (hi : i < (m.bytesAt pc).length) :
    (m.bytesAt pc)[i] = m.peek (pc + UInt16.ofNat i) := by
  simp [bytesAt]

theorem lengthAt_le (m : Memory) (pc : UInt16) : m.lengthAt pc ≤ 3 := by
  unfold lengthAt
  split
  · next ins _ =>
    have hle := ins.mode.operandLength_le
    unfold Instruction.length
    omega
  · decide

theorem length_disassemble_le (m : Memory) (pc : UInt16) : (m.disassemble pc).length ≤ 11 := by
  unfold disassemble
  split
  · exact Instruction.length_text_le _ _ _ _
  · decide

end Memory

namespace TraceLine

/-- A line without colour keeps its columns. -/
theorem shows_line (m : Memory) (r : Registers) (cycles : UInt64) :
    Shows (line m r cycles false) r.pc (m.bytesAt r.pc) (m.disassemble r.pc) := by
  have hbytes : (Text.padded 8 (bytesText (m.bytesAt r.pc))).length = 8 := by
    have hle := m.lengthAt_le r.pc
    rw [Text.length_padded, length_bytesText, Memory.length_bytesAt]
    omega
  have htext : (Text.padded 32 (m.disassemble r.pc)).length = 32 := by
    have hle := m.length_disassemble_le r.pc
    rw [Text.length_padded]
    omega
  refine ⟨rfl, ?bytesShown, ?textShown⟩
  case bytesShown =>
    show List.take 8 (_ ++ _ ++ _ ++ _) = _
    rw [List.append_assoc, List.append_assoc]
    exact List.take_left' hbytes
  case textShown =>
    have hdrop : (line m r cycles false).drop 16 =
        Text.padded 32 (m.disassemble r.pc) ++ stateText r cycles := by
      rw [line, List.append_assoc]
      exact List.drop_left' (by simp [paint, hbytes])
    rw [hdrop]
    exact List.take_left' htext

end TraceLine

/-! ## Texts with an address -/

/-- The mnemonics that go on elsewhere whatever the flags. -/
def Mnemonic.redirects : List Mnemonic := [.jmp, .jsr, .rts, .rti, .brk]

/-- The address that the text of an instruction at `pc` names as its target. -/
def Instruction.target? (ins : Instruction) (pc : UInt16) (first second : UInt8) : Option UInt16 :=
  match ins.mode with
  | .absolute => some (Word.make first second)
  | .relative => some (Word.displaced (pc + 2) first)
  | _ => none

theorem Instruction.text_of_target {ins : Instruction} {pc target : UInt16} {first second : UInt8}
    (h : ins.target? pc first second = some target) :
    ins.text pc first second =
      ins.mnemonic.name.toList ++ ' ' :: '$' :: Text.wordDigits target := by
  have hoperand : operandText ins.mode pc first second = '$' :: Text.wordDigits target := by
    unfold target? at h
    split at h
    · next hmode =>
      cases h
      rw [hmode]
      rfl
    · next hmode =>
      cases h
      rw [hmode]
      rfl
    · cases h
  unfold text
  rw [hoperand]
  rfl

/-- The step has gone to the target that its instruction names: that of a taken branch, of a jump
without a pointer or of a call. -/
def Instruction.Directed (ins : Instruction) (o : StepOutcome) : Prop :=
  (ins.mnemonic ∈ Mnemonic.branches ∧ o.Taken) ∨ (ins.mnemonic = .jmp ∧ ins.mode = .absolute) ∨
    ins.mnemonic = .jsr

theorem Instruction.mode_of_jsr {ins : Instruction} (h : ins ∈ table) (hm : ins.mnemonic = .jsr) :
    ins.mode = .absolute := by
  have key : ∀ row ∈ table, row.mnemonic = .jsr → row.mode = .absolute := by decide +kernel
  exact key ins h hm

namespace Cpu

variable {c : Cpu} {ins : Instruction} {o : StepOutcome} {mode : Mode} {operation : Operation}

/-! ## Bytes -/

namespace Executes

variable (h : c.Executes ins)

include h

/-- The disassembler finds the row that the step carries out. -/
theorem instructionAt_eq (hins : ins ∈ Instruction.table) :
    c.memory.instructionAt c.pc = some ins := h.lookup_peek hins

/-- Each byte that is shown is fetched by the step. -/
theorem read_bytesAt (hins : ins ∈ Instruction.table)
    (hdemands : c.terms.GrantsAll (c.afterOpcode.instructionDemands ins)) {i : Nat}
    (hi : i < (c.memory.bytesAt c.pc).length) :
    c.memory.read (c.pc + UInt16.ofNat i) = .ok (c.memory.bytesAt c.pc)[i] := by
  rw [Memory.getElem_bytesAt]
  rw [Memory.length_bytesAt, Memory.lengthAt_eq (h.instructionAt_eq hins), Instruction.length] at hi
  refine Memory.read_of_not_refuses ?_
  cases i with
  | zero =>
    show ¬ c.memory.policy.Refuses (c.pc + 0)
    rw [UInt16.add_zero]
    exact (Memory.not_refuses_of_read_eq_ok h.opcode).1
  | succ i =>
    have hread : Demand.read (c.pc + 1 + UInt16.ofNat i) ∈ c.afterOpcode.operandReads ins.mode :=
      List.mem_map.2 ⟨i, List.mem_range.2 (by omega), rfl⟩
    have hplace : c.pc + UInt16.ofNat (i + 1) = c.pc + 1 + UInt16.ofNat i := by
      rw [UInt16.ofNat_add, UInt16.add_comm (UInt16.ofNat i), ← UInt16.add_assoc]
      rfl
    rw [hplace]
    unfold instructionDemands at hdemands
    refine hdemands (.read _) (List.mem_append_left _ (List.mem_append_left _ ?_))
    exact List.mem_append_left _ hread

/-! ## PC -/

/-- In sequence, PC moves by the length of the instruction. -/
theorem pc_of_next (hflow : c.afterOpcode.flow ins.operation = .next)
    (heffect : (c.afterOpcode.effect ins.operation ins.mode).pc = c.pc + 1) :
    (c.completed ins).pc.toNat = (c.pc.toNat + ins.length) % 65536 := by
  rw [completed_of_next rfl (by rwa [h.ready_eq]), h.ready_eq]
  show ((c.afterOpcode.effect ins.operation ins.mode).pc + _).toNat = _
  have hle := ins.mode.operandLength_le
  rw [heffect, UInt16.toNat_add, UInt16.toNat_add, UInt16.toNat_ofNat', Instruction.length]
  show ((c.pc.toNat + 1) % 65536 + _) % 65536 = _
  omega

end Executes

/-- An operation that goes on in sequence leaves PC alone. -/
theorem pc_effect (c : Cpu) (mode : Mode) (h : c.flow operation = .next) :
    (c.effect operation mode).pc = c.pc := by
  have hwith (v : UInt8) : (c.withOperand mode v).pc = c.pc := by
    unfold withOperand
    cases c.effectiveAddress mode <;> rfl
  have hresult (target : Register) (v : UInt8) : (c.withResult target v).pc = c.pc := by
    cases target <;> rfl
  cases operation with
  | load | logic | stepRegister => exact hresult _ _
  | store | shift | stepOperand => exact hwith _
  | transfer source target =>
    cases target with
    | sp => rfl
    | a | x | y => exact hresult _ _
  | branch flag value =>
    have hnot : ¬ c.status.get flag = value := fun htaken => by simp [flow, htaken] at h
    rw [effect, if_neg hnot]
  | brk =>
    unfold flow at h
    cases hbrk : c.config.brk <;> simp [hbrk] at h
  | jump | call | returnFromCall | returnFromInterrupt => cases h
  | _ => rfl

theorem flow_of_sequential {m : Mnemonic} (c : Cpu) (h : m ∉ Mnemonic.redirects)
    (hb : m ∉ Mnemonic.branches) : c.flow m.operation = .next := by
  cases m with
  | jmp | jsr | rts | rti | brk => exact absurd (by decide) h
  | bcc | bcs | beq | bne | bmi | bpl | bvc | bvs => exact absurd (by decide) hb
  | _ => rfl

/-- PC moves by the number of bytes shown, unless the instruction goes on elsewhere. -/
theorem pc_of_sequential (h : c.Undisturbed) (ho : (step.run c).result = .ok o)
    (hl : Instruction.lookup o.opcode = some ins) (hm : ins.mnemonic ∉ Mnemonic.redirects)
    (hnot : ¬ (ins.mnemonic ∈ Mnemonic.branches ∧ o.Taken)) :
    (step.run c).state.pc.toNat = (c.pc.toNat + ins.length) % 65536 := by
  have hins := Instruction.mem_table_of_lookup hl
  by_cases hb : ins.mnemonic ∈ Mnemonic.branches
  · obtain ⟨flag, value, hop⟩ : ∃ flag value, ins.operation = .branch flag value :=
      Mnemonic.exists_of_branches hb
    have hmode := Instruction.mode_of_branches hins (by rw [hop]; rfl)
    obtain ⟨offset, -, htaken, cycles, hs⟩ := branch_of_step_ok h ho hl hop
    have hflag : ¬ c.status.get flag = value := fun hflag => hnot ⟨hb, htaken.2 hflag⟩
    rw [hs, if_neg hflag, Instruction.length, hmode]
    exact UInt16.toNat_add c.pc 2
  · obtain ⟨hexecutes, hdemands⟩ := executes_of_lookup h ho hl
    have hflow : c.afterOpcode.flow ins.operation = .next := flow_of_sequential _ hm hb
    rw [(hexecutes.step_eq hins hdemands).1]
    exact hexecutes.pc_of_next hflow (pc_effect c.afterOpcode ins.mode hflow)

/-- A jump or a call to a word leads to the word shown. -/
theorem target_of_word (h : c.Executes ins) (hop : ins.operation = .jump ∨ ins.operation = .call)
    (hmode : ins.mode = .absolute) :
    ins.target? c.pc (c.memory.peek (c.pc + 1)) (c.memory.peek (c.pc + 2)) =
      some (c.completed ins).pc := by
  have hflow : c.ready.flow ins.operation = .jump := by
    rcases hop with hop | hop <;> rw [hop] <;> rfl
  have heffect : (c.ready.effect ins.operation ins.mode).pc = c.peekWord (c.pc + 1) (c.pc + 2) := by
    rw [h.ready_eq, hmode, ← Word.add_one_add_one]
    rcases hop with hop | hop <;> rw [hop] <;> rfl
  rw [completed_of_jump rfl hflow, heffect, Instruction.target?, hmode]
  rfl

/-- A target that a step goes to is the one shown. -/
theorem target_of_directed (h : c.Undisturbed) (ho : (step.run c).result = .ok o)
    (hl : Instruction.lookup o.opcode = some ins) (hd : ins.Directed o) :
    ins.target? c.pc (c.memory.peek (c.pc + 1)) (c.memory.peek (c.pc + 2)) =
      some (step.run c).state.pc := by
  have hins := Instruction.mem_table_of_lookup hl
  obtain ⟨hexecutes, hdemands⟩ := executes_of_lookup h ho hl
  rcases hd with ⟨hb, htaken⟩ | ⟨hjmp, hmode⟩ | hjsr
  · obtain ⟨flag, value, hop⟩ : ∃ flag value, ins.operation = .branch flag value :=
      Mnemonic.exists_of_branches hb
    have hmode := Instruction.mode_of_branches hins (by rw [hop]; rfl)
    obtain ⟨offset, hoffset, hiff, cycles, hs⟩ := branch_of_step_ok h ho hl hop
    rw [hs, if_pos (hiff.1 htaken), Instruction.target?, hmode,
      (Memory.not_refuses_of_read_eq_ok hoffset).2]
  · rw [(hexecutes.step_eq hins hdemands).1]
    exact target_of_word hexecutes (.inl (congrArg Mnemonic.operation hjmp)) hmode
  · rw [(hexecutes.step_eq hins hdemands).1]
    exact target_of_word hexecutes (.inr (congrArg Mnemonic.operation hjsr))
      (Instruction.mode_of_jsr hins hjsr)

/-! ## Main statement -/

/-- **Trace and execution decode alike.** Where a processor without an interrupt to serve makes a
step that succeeds, the trace line written before it shows the address and the opcode that the step
reports, and with the opcode all bytes of the instruction as the bus gives them. PC moves by the
number of bytes shown, unless the instruction goes on elsewhere; and the step of a taken branch, a
`JMP` without a pointer or a `JSR` goes to the address in the assembler text. -/
theorem traceLine_of_step (h : c.Undisturbed) (ho : (step.run c).result = .ok o) :
    let after := (step.run c).state
    ∃ ins bytes, Instruction.lookup o.opcode = some ins ∧
      TraceLine.Shows c.traceLine o.pc bytes (c.memory.disassemble c.pc) ∧
      o.pc = c.pc ∧ bytes.length = ins.length ∧ bytes.head? = some o.opcode ∧
      (∀ i, (hi : i < bytes.length) → c.memory.read (c.pc + UInt16.ofNat i) = .ok bytes[i]) ∧
      (ins.mnemonic ∉ Mnemonic.redirects → ¬ (ins.mnemonic ∈ Mnemonic.branches ∧ o.Taken) →
        after.pc.toNat = (c.pc.toNat + bytes.length) % 65536) ∧
      (ins.Directed o → c.memory.disassemble c.pc =
        ins.mnemonic.name.toList ++ ' ' :: '$' :: Text.wordDigits after.pc) := by
  intro after
  obtain ⟨ins, hins, hexecutes, hdemands⟩ := exists_executes_of_step_ok h ho
  have hat := hexecutes.instructionAt_eq hins
  have ho' := (hexecutes.step_eq hins hdemands).2
  rw [ho] at ho'
  have hpc : o.pc = c.pc := congrArg StepOutcome.pc (Except.ok.inj ho')
  have hopcode : o.opcode = ins.opcode := congrArg StepOutcome.opcode (Except.ok.inj ho')
  have hl : Instruction.lookup o.opcode = some ins := by
    rw [hopcode]
    exact Instruction.lookup_opcode hins
  have hlength : (c.memory.bytesAt c.pc).length = ins.length := by
    rw [Memory.length_bytesAt, Memory.lengthAt_eq hat]
  refine ⟨ins, c.memory.bytesAt c.pc, hl, ?shows, hpc, hlength, ?head,
    fun i hi => hexecutes.read_bytesAt hins hdemands hi, fun hm hnot => ?next, fun hd => ?target⟩
  case shows =>
    rw [hpc]
    exact TraceLine.shows_line c.memory c.toRegisters c.cycles
  case head =>
    have hpos : 0 < (c.memory.bytesAt c.pc).length := by
      rw [hlength, Instruction.length]
      omega
    have hread := hexecutes.read_bytesAt hins hdemands hpos
    have hplace : c.pc + UInt16.ofNat 0 = c.pc := UInt16.add_zero c.pc
    rw [hplace, hexecutes.opcode] at hread
    rw [List.head?_eq_getElem?, List.getElem?_eq_getElem hpos, hopcode, Except.ok.inj hread]
  case next => rw [hlength, pc_of_sequential h ho hl hm hnot]
  case target =>
    rw [Memory.disassemble_eq hat]
    exact Instruction.text_of_target (target_of_directed h ho hl hd)

/-- A `BPL` in the last cell of memory whose offset, in the first one, leads back to it, and an
`LDA` that begins in the last mirror of work memory and ends in the video registers. -/
theorem traceLine_of_step_bpl_lda :
    let c := { ofMemory (((Memory.blank .flat).load 0xFFFF [0x10]).load 0x0000 [0xFE]) {} with
      state := .running, pc := 0xFFFF }
    let d := { ofMemory (((Memory.blank .flat).load 0x07FE [0xAD, 0x34]).load 0x2000 [0x12]) {} with
      state := .running, pc := 0x1FFE }
    let o : StepOutcome := ⟨0xFFFF, 0x10, 4, false, none⟩
    let o' : StepOutcome := ⟨0x1FFE, 0xAD, 4, false, none⟩
    (c.Undisturbed ∧ (step.run c).result = .ok o) ∧
      TraceLine.Shows c.traceLine 0xFFFF [0x10, 0xFE] "BPL $FFFF".toList ∧
      (step.run c).state.pc = 0xFFFF ∧
      (d.Undisturbed ∧ (step.run d).result = .ok o') ∧
      TraceLine.Shows d.traceLine 0x1FFE [0xAD, 0x34, 0x12] "LDA $1234".toList ∧
      (step.run d).state.pc = 0x2001 := by
  intro c d o o'
  have hc : c.Undisturbed := ⟨rfl, rfl, rfl⟩
  have hd : d.Undisturbed := ⟨rfl, rfl, rfl⟩
  have ho : (step.run c).result = .ok o := by decide +kernel
  have ho' : (step.run d).result = .ok o' := by decide +kernel
  obtain ⟨bpl, bytes, hl, hshows, -, hlength, -, hreads, -, htarget⟩ := traceLine_of_step hc ho
  obtain ⟨lda, bytes', hl', hshows', -, hlength', -, hreads', hnext, -⟩ := traceLine_of_step hd ho'
  have hbpl : Instruction.lookup 0x10 = some ⟨0x10, .bpl, .relative, 2⟩ := by decide +kernel
  have hlda : Instruction.lookup 0xAD = some ⟨0xAD, .lda, .absolute, 4⟩ := by decide +kernel
  cases hbpl.symm.trans hl
  cases hlda.symm.trans hl'
  have hbytes : bytes = [0x10, 0xFE] := by
    have key : ∀ i, (hi : i < 2) →
        c.memory.read (c.pc + UInt16.ofNat i) = .ok ([0x10, 0xFE] : List UInt8)[i] := by
      decide +kernel
    exact List.ext_getElem hlength fun i hi hi' =>
      Except.ok.inj ((hreads i hi).symm.trans (key i hi'))
  have hbytes' : bytes' = [0xAD, 0x34, 0x12] := by
    have key : ∀ i, (hi : i < 3) →
        d.memory.read (d.pc + UInt16.ofNat i) = .ok ([0xAD, 0x34, 0x12] : List UInt8)[i] := by
      decide +kernel
    exact List.ext_getElem hlength' fun i hi hi' =>
      Except.ok.inj ((hreads' i hi).symm.trans (key i hi'))
  have hpc : (step.run c).state.pc = 0xFFFF := by decide +kernel
  have htext := htarget (.inl ⟨by decide, by decide⟩)
  have htext' : d.memory.disassemble d.pc = "LDA $1234".toList := by decide +kernel
  have hpc' := hnext (by decide) (fun h => absurd h.1 (by decide))
  rw [hpc] at htext
  rw [htext, hbytes] at hshows
  rw [htext', hbytes'] at hshows'
  rw [hlength'] at hpc'
  exact ⟨⟨hc, ho⟩, hshows, hpc, ⟨hd, ho'⟩, hshows', UInt16.toNat_inj.1 hpc'⟩

end Cpu

end NesCore
