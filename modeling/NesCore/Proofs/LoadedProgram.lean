import NesCore.Proofs.ConsoleReset
import NesCore.Proofs.Memory.Unreachable

/-!
# A loaded program

Loading stores a program in raw cells, while the processor reads through the mirrors of work memory.
A reset starts at the program (`resetWord_loadProgram`), but of a program in `$0800-$1FFF` the
processor sees the cells of `$0000-$07FF` (`read_loadProgram`).

Main statement: `reset_of_loadProgram`.
-/

namespace NesCore

namespace Memory

variable {start : UInt16} {bytes : List UInt8}

/-- The byte that a program at `start` puts into a raw cell, 0 where the program is not. -/
def programByte (start : UInt16) (bytes : List UInt8) (cell : Nat) : UInt8 :=
  if start.toNat ≤ cell then bytes[cell - start.toNat]?.getD 0 else 0

theorem programByte_at (start : UInt16) {i : Nat} (hi : i < bytes.length) :
    programByte start bytes (start.toNat + i) = bytes[i] := by
  rw [programByte, if_pos (Nat.le_add_right _ _), Nat.add_sub_cancel_left,
    List.getElem?_eq_getElem hi, Option.getD_some]

/-- The cell whose byte an address of plain storage reads as. -/
def plainCell (address : Nat) : Nat := if address < 0x2000 then address % 0x0800 else address

theorem plainCell_of_outside {address : Nat} (h : address < 0x0800 ∨ 0x2000 ≤ address) :
    plainCell address = address := by
  unfold plainCell
  split_ifs <;> omega

theorem plainCell_of_mirror {address : Nat} (h : address < 0x2000) :
    plainCell address = address % 0x0800 := if_pos h

theorem plainCell_le (address : Nat) : plainCell address ≤ address := by
  unfold plainCell
  split_ifs
  · exact Nat.mod_le _ _
  · exact Nat.le_refl _

theorem toNat_fold_flat (a : UInt16) : (IoPolicy.flat.fold a).toNat = plainCell a.toNat := by
  have hlow : a < 0x2000 ↔ a.toNat < 0x2000 := UInt16.lt_iff_toNat_lt
  unfold IoPolicy.fold plainCell
  simp only [hlow]
  split_ifs with hwork hvideo
  · rw [UInt16.toNat_and]
    exact Nat.and_two_pow_sub_one_eq_mod a.toNat 11
  · cases hvideo.1
  · rfl

/-! ## The memory of a program -/

@[simp] theorem policy_loadProgram (m : Memory) (start : UInt16) (bytes : List UInt8) :
    (m.loadProgram start bytes).policy = m.policy := by
  rw [loadProgram, policy_load, policy_load]

/-- The reset vector is stored last, so it leads to the program. -/
theorem resetWord_loadProgram (m : Memory) (start : UInt16) (bytes : List UInt8) :
    (m.loadProgram start bytes).resetWord = start := by
  have hlow : (m.loadProgram start bytes).cell resetVector = Word.low start := by
    rw [loadProgram, cell_load]
    rfl
  have hhigh : (m.loadProgram start bytes).cell (resetVector + 1) = Word.high start := by
    rw [loadProgram, cell_load]
    rfl
  rw [resetWord, hlow, hhigh, Word.make_low_high]

/-- Below the reset vector a blank memory holds the program and nothing else. -/
theorem cell_loadProgram (policy : IoPolicy) (start : UInt16) (bytes : List UInt8) {a : UInt16}
    (h : a.toNat < 0xFFFC) :
    ((blank policy).loadProgram start bytes).cell a = programByte start bytes a.toNat := by
  have hvector : ¬ resetVector.toNat ≤ a.toNat := Nat.not_le.2 h
  rw [loadProgram, cell_load, if_neg hvector, cell_load, cell_blank, programByte]

/-- An address of a program reads as the cell that it leads to. -/
theorem read_loadProgram (hend : start.toNat + bytes.length ≤ 0xFFFC) {i : Nat}
    (hi : i < bytes.length) :
    ((blank .flat).loadProgram start bytes).read (start + UInt16.ofNat i) =
      .ok (programByte start bytes (plainCell (start.toNat + i))) := by
  have haddress : (start + UInt16.ofNat i).toNat = start.toNat + i := by
    rw [UInt16.toNat_add, UInt16.toNat_ofNat']
    omega
  have hcell := toNat_fold_flat (start + UInt16.ofNat i)
  have hle := plainCell_le (start.toNat + i)
  rw [haddress] at hcell
  have hpolicy : ((blank .flat).loadProgram start bytes).policy = .flat := policy_loadProgram ..
  rw [read_eq, hpolicy, if_neg (IoPolicy.not_refuses_of_ne_fault (by decide) _),
    if_neg (fun h => nomatch h.1), cell_loadProgram _ _ _ (by omega), hcell]

/-- The processor sees a program: it reads each byte at its address. -/
def Sees (m : Memory) (start : UInt16) (bytes : List UInt8) : Prop :=
  ∀ i, (hi : i < bytes.length) → m.read (start + UInt16.ofNat i) = .ok bytes[i]

theorem sees_loadProgram_iff (hend : start.toNat + bytes.length ≤ 0xFFFC) :
    ((blank .flat).loadProgram start bytes).Sees start bytes ↔
      ∀ i, (hi : i < bytes.length) → 0x0800 ≤ start.toNat + i → start.toNat + i < 0x2000 →
        programByte start bytes ((start.toNat + i) % 0x0800) = bytes[i] := by
  constructor
  · intro hsees i hi hfrom hto
    have hread := (read_loadProgram hend hi).symm.trans (hsees i hi)
    rw [plainCell_of_mirror hto] at hread
    exact Except.ok.inj hread
  · intro hmirrors i hi
    rw [read_loadProgram hend hi]
    by_cases hrange : 0x0800 ≤ start.toNat + i ∧ start.toNat + i < 0x2000
    · rw [plainCell_of_mirror hrange.2, hmirrors i hi hrange.1 hrange.2]
    · rw [plainCell_of_outside (by omega), programByte_at start hi]

end Memory

namespace Cpu

variable {start : UInt16} {bytes : List UInt8}

/-! ## Main statement -/

/-- **Resetting into a loaded program.** A processor over a blank memory of plain storage with a
program that ends below the reset vector goes on at the program after a reset. It sees each byte of
the program outside `$0800-$1FFF`; there it sees what the program put into the cell 2 KiB, 4 KiB or
6 KiB below, and 0 if the program does not reach down to that cell. So it sees the program in full
exactly if the bytes in that range repeat the bytes of those cells, as with any program that keeps
out of it. -/
theorem reset_of_loadProgram {c : Cpu}
    (hc : c.memory = (Memory.blank .flat).loadProgram start bytes)
    (hend : start.toNat + bytes.length ≤ 0xFFFC) :
    let after := (reset.run c).state
    (reset.run c).result = .ok () ∧ after.pc = start ∧
    (∀ i, (hi : i < bytes.length) →
      (start.toNat + i < 0x0800 ∨ 0x2000 ≤ start.toNat + i →
        after.memory.read (start + UInt16.ofNat i) = .ok bytes[i]) ∧
      (0x0800 ≤ start.toNat + i → start.toNat + i < 0x2000 →
        after.memory.read (start + UInt16.ofNat i) =
          .ok (Memory.programByte start bytes ((start.toNat + i) % 0x0800)))) ∧
    (after.memory.Sees start bytes ↔
      ∀ i, (hi : i < bytes.length) → 0x0800 ≤ start.toNat + i → start.toNat + i < 0x2000 →
        Memory.programByte start bytes ((start.toNat + i) % 0x0800) = bytes[i]) ∧
    (start.toNat + bytes.length ≤ 0x0800 ∨ 0x2000 ≤ start.toNat →
      after.memory.Sees start bytes) := by
  intro after
  have hafter : after = c.restarted := by
    show (reset.run c).state = _
    rw [run_reset]
  have hmemory : after.memory = (Memory.blank .flat).loadProgram start bytes := by
    rw [hafter]
    exact hc
  have hsees := Memory.sees_loadProgram_iff hend
  rw [← hmemory] at hsees
  refine ⟨by rw [run_reset], ?pc, fun i hi => ⟨fun houtside => ?outside, fun _ hto => ?mirror⟩,
    hsees, fun hclear => hsees.2 fun i hi hfrom hto => ?clear⟩
  case pc => rw [hafter, pc_restarted, hc, Memory.resetWord_loadProgram]
  case outside =>
    rw [hmemory, Memory.read_loadProgram hend hi, Memory.plainCell_of_outside houtside,
      Memory.programByte_at start hi]
  case mirror => rw [hmemory, Memory.read_loadProgram hend hi, Memory.plainCell_of_mirror hto]
  case clear => omega

/-- `LDA #$01` at `$07FF` reaches over the end of work memory: the processor sees the opcode, and
its operand in the mirror as the zero in `$0000`. -/
theorem reset_of_loadProgram_across :
    let c := ofMemory ((Memory.blank .flat).loadProgram 0x07FF [0xA9, 0x01]) {}
    let after := (reset.run c).state
    (0x07FF : UInt16).toNat + [0xA9, 0x01].length ≤ 0xFFFC ∧
    (reset.run c).result = .ok () ∧ after.pc = 0x07FF ∧
    after.memory.read 0x07FF = .ok 0xA9 ∧ after.memory.read 0x0800 = .ok 0x00 ∧
    ¬ after.memory.Sees 0x07FF [0xA9, 0x01] := by
  intro c after
  have hc : c.memory = (Memory.blank .flat).loadProgram 0x07FF [0xA9, 0x01] := rfl
  obtain ⟨hok, hpc, hreads, hsees, -⟩ := reset_of_loadProgram hc (by decide)
  refine ⟨by decide, hok, hpc, (hreads 0 (by decide)).1 (.inl (by decide)),
    (hreads 1 (by decide)).2 (by decide) (by decide), fun h => ?_⟩
  exact absurd (hsees.1 h 1 (by decide) (by decide) (by decide)) (by decide)

/-- A program of one byte at `$0800` is not what the processor sees. -/
theorem not_forall_sees_loadProgram :
    ¬ ∀ (c : Cpu) (start : UInt16) (bytes : List UInt8),
      c.memory = (Memory.blank .flat).loadProgram start bytes → bytes ≠ [] →
      start.toNat + bytes.length ≤ 0xFFFC →
      (reset.run c).state.pc = start ∧ (reset.run c).state.memory.Sees start bytes := by
  intro h
  have hsees := (h (ofMemory ((Memory.blank .flat).loadProgram 0x0800 [0xA9]) {}) 0x0800 [0xA9] rfl
    (by decide) (by decide)).2
  exact absurd (hsees 0 (by decide)) (by decide +kernel)

end Cpu

end NesCore
