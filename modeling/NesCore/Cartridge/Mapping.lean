import NesCore.Cartridge.Basic
import NesCore.Memory.Access

/-!
# A cartridge in memory

Program ROM starts at `$8000`; a single bank of 16 KiB appears a second time at `$C000`, and what
is longer than 32 KiB is cut. The trainer lies at `$7000`. From then on the ROM is read-only.
-/

namespace NesCore

namespace Memory

/-- The size of a bank of program ROM. -/
def bankSize : Nat := 16384

/-- The bytes that fit between `$8000` and the end of memory. -/
def romWindow : Nat := 32768

/-- The first address of the second bank. -/
def secondBank : UInt16 := 0xC000

/-- Where a trainer lies. -/
def trainerStart : UInt16 := 0x7000

/-- The memory with program ROM loaded. -/
def loadRom (m : Memory) (prg : List UInt8) : Memory :=
  if prg.length = bankSize then (m.load romStart prg).load secondBank prg
  else m.load romStart (prg.take romWindow)

/-- The memory with a cartridge mapped. -/
def insert (m : Memory) (c : Cartridge) : Memory :=
  let m := m.loadRom c.prg
  let m := match c.trainer with
    | some trainer => m.load trainerStart trainer
    | none => m
  { m with romMapped := true }

/-- The word in the cells of the reset vector. -/
def resetWord (m : Memory) : UInt16 :=
  Word.make (m.cell resetVector) (m.cell (resetVector + 1))

/-- What is reported of a cartridge that the memory has mapped. -/
def mappedNotice (m : Memory) (c : Cartridge) : Notice := .romMapped c.prg.length m.resetWord

theorem policy_loadRom (m : Memory) (prg : List UInt8) : (m.loadRom prg).policy = m.policy := by
  unfold loadRom
  split <;> simp

@[simp] theorem policy_insert (m : Memory) (c : Cartridge) : (m.insert c).policy = m.policy := by
  unfold insert
  cases c.trainer <;> simp [policy_loadRom]

@[simp] theorem romMapped_insert (m : Memory) (c : Cartridge) : (m.insert c).romMapped = true := rfl

end Memory

end NesCore
