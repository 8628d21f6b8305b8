import NesCore.Proofs.RomIntegrity

/-!
# A mapped cartridge

Mapping lays the bytes of a cartridge over what memory held. `Cartridge.byteAt?` is the byte that a
cartridge has for a raw address; from then on each cell holds this byte, or what it held before if
there is none (`Memory.cell_insert`). So the same cartridge, mapped again, changes nothing.

Main statement: `insert_maps_cartridge`.
-/

namespace NesCore

/-- The byte that a cartridge has for a raw address. A single bank of program ROM has one for every
address from `$8000` on, twice over; another ROM as far as it goes; a trainer from `$7000` on. -/
def Cartridge.byteAt? (c : Cartridge) (a : UInt16) : Option UInt8 :=
  if 0x8000 ≤ a.toNat then
    if c.prg.length = 0x4000 then c.prg[(a.toNat - 0x8000) % 0x4000]? else c.prg[a.toNat - 0x8000]?
  else if 0x7000 ≤ a.toNat then c.trainer.bind fun trainer => trainer[a.toNat - 0x7000]?
  else none

namespace Memory

variable {c : Cartridge} {a : UInt16}

/-! ## Cells -/

/-- Program ROM lies from `$8000` on. -/
theorem cell_loadRom_of_below (m : Memory) (prg : List UInt8) (ha : a.toNat < 0x8000) :
    (m.loadRom prg).cell a = m.cell a := by
  have hrom : romStart.toNat = 0x8000 := rfl
  have hbank : secondBank.toNat = 0xC000 := rfl
  unfold loadRom
  split_ifs
  · rw [cell_load, if_neg (by omega), cell_load, if_neg (by omega)]
  · rw [cell_load, if_neg (by omega)]

/-- Below `$8000` a trainer is all that a cartridge has. -/
theorem cell_insert_of_below (m : Memory) (c : Cartridge) (ha : a.toNat < 0x8000) :
    (m.insert c).cell a = (c.byteAt? a).getD (m.cell a) := by
  have hstart : trainerStart.toNat = 0x7000 := rfl
  unfold insert Cartridge.byteAt?
  rw [if_neg (Nat.not_le.2 ha)]
  cases c.trainer with
  | none =>
    show (m.loadRom c.prg).cell a = _
    rw [cell_loadRom_of_below m c.prg ha]
    split_ifs <;> rfl
  | some trainer =>
    show ((m.loadRom c.prg).load trainerStart trainer).cell a = _
    rw [cell_load, hstart, cell_loadRom_of_below m c.prg ha]
    split_ifs <;> rfl

/-- Each cell holds the byte of the cartridge, or what it held before. -/
theorem cell_insert (m : Memory) (ht : ∀ trainer ∈ c.trainer, trainer.length ≤ 0x200) (a : UInt16) :
    (m.insert c).cell a = (c.byteAt? a).getD (m.cell a) := by
  rcases Nat.lt_or_ge a.toNat 0x8000 with hbelow | hrom
  · exact cell_insert_of_below m c hbelow
  have ha : romStart ≤ a := UInt16.le_iff_toNat_le.2 hrom
  rw [cell_insert_of_rom m c ht ha, cell_loadRom m c.prg ha, Cartridge.byteAt?, if_pos hrom]
  split_ifs with hbank
  · have hin : (a.toNat - 0x8000) % 0x4000 < c.prg.length := by omega
    rw [List.getD_eq_getElem?_getD, List.getElem?_eq_getElem hin]
    rfl
  · rfl

/-- A cartridge that is mapped is there already. -/
theorem insert_insert (m : Memory) (ht : ∀ trainer ∈ c.trainer, trainer.length ≤ 0x200) :
    (m.insert c).insert c = m.insert c := by
  refine ext_cell (fun a => ?_) (policy_insert _ c) rfl
  rw [cell_insert (m.insert c) ht, cell_insert m ht]
  cases c.byteAt? a <;> rfl

/-! ## Main statement -/

/-- **Mapping a cartridge.** Whatever memory held, whatever its policy and whether or not a ROM was
mapped, a cartridge that was read from a dump is mapped in full and nothing else changes: from
`$8000` on the cells hold a ROM of a single bank twice, or any other ROM as far as it goes and what
fits; `$7000-$71FF` hold the trainer, if there is one; and every other cell what it held before. The
ROM is then mapped, under the same policy, and mapping the cartridge again changes nothing. -/
theorem insert_maps_cartridge {data : List UInt8} (hc : Cartridge.ofBytes data = .ok c)
    (m : Memory) :
    let mapped := m.insert c
    (∀ a : UInt16, 0x8000 ≤ a.toNat →
      (c.prg.length = 0x4000 → c.prg[(a.toNat - 0x8000) % 0x4000]? = some (mapped.cell a)) ∧
      (c.prg.length ≠ 0x4000 → mapped.cell a = c.prg[a.toNat - 0x8000]?.getD (m.cell a))) ∧
    (∀ a : UInt16, 0x7000 ≤ a.toNat → a.toNat ≤ 0x71FF → ∀ trainer ∈ c.trainer,
      trainer[a.toNat - 0x7000]? = some (mapped.cell a)) ∧
    (∀ a : UInt16, a.toNat < 0x8000 → (a.toNat < 0x7000 ∨ 0x71FF < a.toNat ∨ c.trainer = none) →
      mapped.cell a = m.cell a) ∧
    mapped.romMapped = true ∧ mapped.policy = m.policy ∧ mapped.insert c = mapped := by
  intro mapped
  have hlength := Cartridge.length_trainer hc
  have ht : ∀ trainer ∈ c.trainer, trainer.length ≤ 0x200 :=
    fun trainer hmem => (hlength trainer hmem).le
  have hcell (a : UInt16) : mapped.cell a = (c.byteAt? a).getD (m.cell a) := cell_insert m ht a
  refine ⟨fun a hrom => ⟨fun hbank => ?bank, fun hbank => ?other⟩,
    fun a hfrom hto trainer hmem => ?trainer, fun a hbelow hout => ?rest,
    romMapped_insert m c, policy_insert m c, insert_insert m ht⟩
  case bank =>
    have hin : (a.toNat - 0x8000) % 0x4000 < c.prg.length := by omega
    rw [hcell, Cartridge.byteAt?, if_pos hrom, if_pos hbank, List.getElem?_eq_getElem hin]
    rfl
  case other => rw [hcell, Cartridge.byteAt?, if_pos hrom, if_neg hbank]
  case trainer =>
    have hin : a.toNat - 0x7000 < trainer.length := by
      rw [hlength trainer hmem]
      omega
    rw [hcell, Cartridge.byteAt?, if_neg (by omega), if_pos hfrom, Option.mem_def.1 hmem,
      Option.bind_some, List.getElem?_eq_getElem hin]
    rfl
  case rest =>
    have hnone : c.byteAt? a = none := by
      rw [Cartridge.byteAt?, if_neg (by omega), ite_eq_right_iff]
      intro hfrom
      refine Option.bind_eq_none_iff.2 fun trainer hmem => List.getElem?_eq_none ?_
      have hbehind : 0x71FF < a.toNat := by
        rcases hout with hbefore | hbehind | hnone
        · omega
        · exact hbehind
        · rw [hnone] at hmem
          cases hmem
      rw [hlength trainer hmem]
      omega
    rw [hcell, hnone]
    rfl

/-- A dump with a trainer and a ROM of two bytes, mapped over a memory that holds a byte behind
each. -/
theorem insert_maps_cartridge_of_trainer :
    let data := [0x4E, 0x45, 0x53, 0x1A, 0x04, 0x00, 0x04, 0x08, 0x00, 0x0F, 0, 0, 0, 0, 0, 0]
      ++ List.replicate 512 0x77 ++ [0xEA, 0xEB]
    let m := ((blank .silent).load 0x7200 [0x55]).load 0x8002 [0x66]
    ∃ c, Cartridge.ofBytes data = .ok c ∧ c.prg = [0xEA, 0xEB] ∧
      (m.insert c).cell 0x71FF = 0x77 ∧ (m.insert c).cell 0x7200 = 0x55 ∧
      (m.insert c).cell 0x8001 = 0xEB ∧ (m.insert c).cell 0x8002 = 0x66 ∧
      (m.insert c).policy = .silent ∧ (m.insert c).insert c = m.insert c := by
  intro data m
  let c := Cartridge.slices (Header.fields data) data
  have hc : Cartridge.ofBytes data = .ok c := by decide +kernel
  have hprg : c.prg = [0xEA, 0xEB] := by decide +kernel
  have htrainer : c.trainer = some (List.replicate 512 0x77) := by decide +kernel
  obtain ⟨hrom, htrained, hrest, -, hpolicy, hagain⟩ := insert_maps_cartridge hc m
  have hlength : c.prg.length ≠ 0x4000 := by
    rw [hprg]
    decide
  have hlast := htrained 0x71FF (by decide) (by decide) _ htrainer
  have hbehind := hrest 0x7200 (by decide) (.inr (.inl (by decide)))
  have hsecond := (hrom 0x8001 (by decide)).2 hlength
  have hthird := (hrom 0x8002 (by decide)).2 hlength
  rw [hprg] at hsecond hthird
  refine ⟨c, hc, hprg, ?_, hbehind.trans (by decide +kernel), hsecond.trans (by decide +kernel),
    hthird.trans (by decide +kernel), hpolicy, hagain⟩
  exact Option.some.inj (hlast.symm.trans (List.getElem?_replicate_of_lt (by decide)))

end Memory

end NesCore
