import NesCore.Proofs.Course.Stack
import NesCore.Proofs.Memory.Unreachable

/-!
# The stack page

Nothing comes between the processor and its stack: no address of page one is a mirror, ruled by a
policy or part of a ROM, so what is pushed lies where SP pointed (`cell_written_stackAddress`).
`peek_pushed` finds the bytes of several pushes in a row.
-/

namespace NesCore

/-- The addresses of the stack. -/
def IsStack (a : UInt16) : Prop := 0x0100 ≤ a ∧ a ≤ 0x01FF

namespace Cpu

variable {c : Cpu}

/-! ## Addresses of the stack -/

theorem toNat_stackAddress (sp : UInt8) : (stackAddress sp).toNat = 0x0100 + sp.toNat := by
  rw [stackAddress, Word.toNat_make]
  simp
  omega

theorem isStack_stackAddress (sp : UInt8) : IsStack (stackAddress sp) := by
  have hlt := sp.toNat_lt
  have hsp := toNat_stackAddress sp
  rw [IsStack, UInt16.le_iff_toNat_le, UInt16.le_iff_toNat_le, hsp]
  simp
  omega

theorem stackAddress_inj {s t : UInt8} : stackAddress s = stackAddress t ↔ s = t := by
  refine ⟨fun h => ?_, congrArg stackAddress⟩
  have hlow := congrArg Word.low h
  rwa [stackAddress, stackAddress, Word.low_make, Word.low_make] at hlow

theorem fold_stackAddress (policy : IoPolicy) (sp : UInt8) :
    policy.fold (stackAddress sp) = stackAddress sp := by
  have hlt := sp.toNat_lt
  have hsp := toNat_stackAddress sp
  have hwork : stackAddress sp < 0x2000 := by
    rw [UInt16.lt_iff_toNat_lt, hsp]
    simp
    omega
  rw [IoPolicy.fold, if_pos hwork]
  exact IoPolicy.and_07FF_of_lt (by omega)

/-! ## Single accesses -/

/-- A write to the stack is never dropped. -/
theorem takes_stackAddress (m : Memory) (sp : UInt8) : m.Takes (stackAddress sp) := by
  refine ⟨Bool.eq_false_iff.2 fun h => ?_, ?_, ?_⟩
  · exact not_rom_stackAddress sp (Memory.rom_of_isProtected h)
  · exact m.policy.not_refuses_of_not_isIo (not_isIo_stackAddress sp)
  · exact m.policy.not_swallows_of_not_isIo (not_isIo_stackAddress sp)

theorem peek_stackAddress (m : Memory) (sp : UInt8) :
    m.peek (stackAddress sp) = m.cell (stackAddress sp) := by
  rw [Memory.peek_of_takes (takes_stackAddress m sp), fold_stackAddress]

theorem cell_written_stackAddress (m : Memory) (sp v : UInt8) (a : UInt16) :
    (m.written (stackAddress sp) v).cell a = if stackAddress sp = a then v else m.cell a := by
  rw [Memory.cell_written, fold_stackAddress]
  simp only [takes_stackAddress, true_and]

theorem peek_written_stackAddress (m : Memory) (s t v : UInt8) :
    (m.written (stackAddress s) v).peek (stackAddress t) =
      if s = t then v else m.peek (stackAddress t) := by
  rw [peek_stackAddress, peek_stackAddress, cell_written_stackAddress]
  simp only [stackAddress_inj]

/-! ## Several pushes -/

/-- The places of the stack are counted from SP on downwards. -/
theorem sub_ofNat_succ (sp : UInt8) (i : Nat) :
    sp - UInt8.ofNat (i + 1) = sp - 1 - UInt8.ofNat i := by
  simp only [UInt8.ofNat_add]
  grind

/-- Up to 255 places away another place is reached. -/
theorem ofNat_succ_ne_zero {i : Nat} (h : i + 1 < 256) : UInt8.ofNat (i + 1) ≠ 0 := by
  intro h0
  have hvalue := congrArg UInt8.toNat h0
  rw [UInt8.toNat_ofNat', Nat.mod_eq_of_lt h] at hvalue
  exact Nat.succ_ne_zero i hvalue

theorem sp_pushed (c : Cpu) (bytes : List UInt8) :
    (c.pushed bytes).sp = c.sp - UInt8.ofNat bytes.length := by
  induction bytes generalizing c with
  | nil => simp [pushed]
  | cons v rest ih => rw [pushed, ih, List.length_cons, sub_ofNat_succ]

/-- Apart from memory and SP, pushes leave everything alone. -/
theorem pushed_eq (c : Cpu) (bytes : List UInt8) :
    c.pushed bytes =
      { c with memory := (c.pushed bytes).memory, sp := (c.pushed bytes).sp } := by
  induction bytes generalizing c with
  | nil => rfl
  | cons v rest ih =>
    rw [pushed, ih]

/-- Pushes leave all cells alone but those below SP that they fill. -/
theorem cell_pushed_of_ne {a : UInt16} {bytes : List UInt8}
    (h : ∀ i < bytes.length, a ≠ stackAddress (c.sp - UInt8.ofNat i)) :
    (c.pushed bytes).memory.cell a = c.memory.cell a := by
  induction bytes generalizing c with
  | nil => rfl
  | cons v rest ih =>
    have hfirst : a ≠ stackAddress c.sp := by simpa using h 0 (Nat.zero_lt_succ _)
    rw [pushed, ih fun i hi => ?_]
    · exact (cell_written_stackAddress _ _ _ _).trans (if_neg hfirst.symm)
    · have hnext := h (i + 1) (Nat.succ_lt_succ hi)
      rwa [sub_ofNat_succ] at hnext

/-- Pushes that do not come round to a place leave it alone. -/
theorem peek_pushed_of_ne {t : UInt8} {bytes : List UInt8}
    (h : ∀ i < bytes.length, c.sp - UInt8.ofNat i ≠ t) :
    (c.pushed bytes).memory.peek (stackAddress t) = c.memory.peek (stackAddress t) := by
  rw [peek_stackAddress, peek_stackAddress]
  exact cell_pushed_of_ne fun i hi ht => h i hi (stackAddress_inj.1 ht).symm

/-- As long as SP does not come round, the pushed bytes lie one below the other. -/
theorem peek_pushed {bytes : List UInt8} (h : bytes.length ≤ 256) {i : Nat}
    (hi : i < bytes.length) :
    (c.pushed bytes).memory.peek (stackAddress (c.sp - UInt8.ofNat i)) = bytes[i] := by
  induction bytes generalizing c i with
  | nil => exact absurd hi (Nat.not_lt_zero i)
  | cons v rest ih =>
    rw [List.length_cons] at h hi
    rw [pushed]
    cases i with
    | zero =>
      rw [peek_pushed_of_ne fun j hj => ?_]
      · simp [peek_written_stackAddress]
      · -- The place would be reached again after 256 pushes only.
        have hne : UInt8.ofNat (j + 1) ≠ 0 := ofNat_succ_ne_zero (by omega)
        simp only [UInt8.ofNat_add] at hne
        simp
        grind
    | succ i =>
      rw [sub_ofNat_succ, List.getElem_cons_succ]
      exact ih (by omega) (by omega)

end Cpu

end NesCore
