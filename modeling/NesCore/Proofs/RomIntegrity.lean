import Mathlib.Logic.Relation
import NesCore.Console
import NesCore.Proofs.Course.Reset
import NesCore.Proofs.Dump
import NesCore.Proofs.Invariant
import NesCore.Proofs.Recorded

/-!
# The ROM stays what the cartridge holds

From `$8000` on a started console reads as its cartridge's program ROM, whatever program runs and
whatever its host does through the bus (`rom_reads_as_cartridge`). The invariant is `HoldsRom`: the
cells hold the image and the ROM is mapped. Starting a console establishes it (`holdsRom_insert`), a
write keeps it (`HoldsRom.written`), and so does every move of the machine (`HoldsRom.move`).
-/

namespace NesCore

/-! ## The image of a program ROM -/

/-- The byte that a program ROM shows at an address from `$8000` on: a single bank appears twice,
and what lies past the end of any other ROM is 0. -/
def romByte (prg : List UInt8) (a : UInt16) : UInt8 :=
  if prg.length = 0x4000 then prg.getD ((a.toNat - 0x8000) % 0x4000) 0
  else prg.getD (a.toNat - 0x8000) 0

/-- The memory has mapped a program ROM and shows it. -/
structure HoldsRom (prg : List UInt8) (m : Memory) : Prop where
  romMapped : m.romMapped = true
  cell : ∀ a, romStart ≤ a → m.cell a = romByte prg a

namespace HoldsRom

variable {prg : List UInt8} {m : Memory}

theorem read (h : HoldsRom prg m) {a : UInt16} (ha : romStart ≤ a) :
    m.read a = .ok (romByte prg a) := by
  rw [Memory.read_of_rom ha, h.cell a ha]

/-- No write reaches the cells of the ROM: its own addresses are protected, and no other address
shares a cell with them. -/
theorem written (h : HoldsRom prg m) (a : UInt16) (v : UInt8) : HoldsRom prg (m.written a v) where
  romMapped := by rw [Memory.romMapped_written, h.romMapped]
  cell c hc := by
    rw [Memory.cell_written, if_neg, h.cell c hc]
    rintro ⟨ht, hfold⟩
    have ha : ¬ romStart ≤ a := fun ha => by
      have hp : m.isProtected a = true := by
        simp [Memory.isProtected, h.romMapped, ha]
      exact Memory.not_takes_of_isProtected hp ht
    exact ha (IoPolicy.rom_of_fold (hfold ▸ hc))

end HoldsRom

/-! ## Starting a console -/

namespace Memory

/-- Program ROM shows up from `$8000` on; past its end the memory shows what it held. -/
theorem cell_loadRom (m : Memory) (prg : List UInt8) {a : UInt16} (ha : romStart ≤ a) :
    (m.loadRom prg).cell a =
      if prg.length = 0x4000 then prg.getD ((a.toNat - 0x8000) % 0x4000) 0
      else prg[a.toNat - 0x8000]?.getD (m.cell a) := by
  have hlt := a.toNat_lt
  have hrom : romStart.toNat = 0x8000 := rfl
  have hbank : secondBank.toNat = 0xC000 := rfl
  have hge : 0x8000 ≤ a.toNat := UInt16.le_iff_toNat_le.1 ha
  unfold loadRom bankSize romWindow
  by_cases hlen : prg.length = 0x4000
  · rw [if_pos hlen, if_pos hlen, List.getD_eq_getElem?_getD, cell_load, cell_load, hrom, hbank,
      if_pos hge]
    by_cases hsecond : 0xC000 ≤ a.toNat
    · have hidx : (a.toNat - 0x8000) % 0x4000 = a.toNat - 0xC000 := by omega
      have hin : a.toNat - 0xC000 < prg.length := by omega
      rw [if_pos hsecond, hidx, List.getElem?_eq_getElem hin]
      rfl
    · have hidx : (a.toNat - 0x8000) % 0x4000 = a.toNat - 0x8000 := by omega
      have hin : a.toNat - 0x8000 < prg.length := by omega
      rw [if_neg hsecond, hidx, List.getElem?_eq_getElem hin]
      rfl
  · have hwindow : a.toNat - 0x8000 < 0x8000 := by omega
    rw [if_neg hlen, if_neg hlen, cell_load, hrom, if_pos hge, List.getElem?_take_of_lt hwindow]

/-- A trainer lies below the ROM. -/
theorem cell_load_trainer (m : Memory) {trainer : List UInt8} (ht : trainer.length ≤ 0x200)
    {a : UInt16} (ha : romStart ≤ a) : (m.load trainerStart trainer).cell a = m.cell a := by
  have hge : 0x8000 ≤ a.toNat := UInt16.le_iff_toNat_le.1 ha
  have hstart : trainerStart.toNat = 0x7000 := rfl
  have hout : trainer.length ≤ a.toNat - 0x7000 := by omega
  rw [cell_load, hstart, if_pos (by omega), List.getElem?_eq_none hout]
  rfl

theorem cell_insert_of_rom (m : Memory) (c : Cartridge)
    (ht : ∀ trainer ∈ c.trainer, trainer.length ≤ 0x200) {a : UInt16} (ha : romStart ≤ a) :
    (m.insert c).cell a = (m.loadRom c.prg).cell a := by
  unfold insert
  dsimp only
  cases h : c.trainer with
  | none => rfl
  | some trainer => exact cell_load_trainer _ (ht trainer (by rw [h]; rfl)) ha

end Memory

namespace Cartridge

/-- A dump that was taken apart has a trainer of at most 512 bytes. -/
theorem trainer_length_le {data : List UInt8} {c : Cartridge} (h : ofBytes data = .ok c) :
    ∀ trainer ∈ c.trainer, trainer.length ≤ 0x200 :=
  fun trainer ht => (length_trainer h trainer ht).le

end Cartridge

theorem holdsRom_insert (policy : IoPolicy) {c : Cartridge}
    (ht : ∀ trainer ∈ c.trainer, trainer.length ≤ 0x200) :
    HoldsRom c.prg ((Memory.blank policy).insert c) where
  romMapped := Memory.romMapped_insert _ c
  cell a ha := by
    rw [Memory.cell_insert_of_rom _ c ht ha, Memory.cell_loadRom _ _ ha, Memory.cell_blank]
    simp only [romByte, List.getD_eq_getElem?_getD]

namespace Console

open NesCore.Action

/-- A console resets like its processor, on record. -/
theorem exists_recorded_reset : ∃ x, Cpu.Recorded x ∧ reset = onCpu x := by
  refine ⟨_, .bind Cpu.recorded_reset fun _ => .bind (.look _) fun c => .ite ?zero (.pure _), rfl⟩
  exact .bind (.note _) fun _ => .update fun _ => ⟨rfl, rfl⟩

theorem result_reset (console : Console) : (reset.run console).result = .ok () := by
  simp only [reset, onCpu, run_onPart, result_bind, Cpu.run_reset, run_look]
  split_ifs <;> rfl

/-- A cartridge without a mapper starts, and a started console has just been reset. -/
theorem start_of_nrom {c : Cartridge} (hm : c.header.mapper = 0) (config : ConsoleConfig) :
    (start c config).result = .ok () ∧
      (start c config).state = (reset.run (assemble c config)).state := by
  have hnrom : c.requireNrom = .ok () := by simp [Cartridge.requireNrom, hm]
  simp [start, hnrom, result_bind, state_bind, result_reset, Except.mapError]

/-! ## Moves -/

end Console

/-- A host that touches memory only through bus operations. -/
def Host.UsesBus {η : Type} (host : Host η) : Prop :=
  ∀ h tick m, ∃ history : List BusOp, (host h tick m).memory = m.after history

namespace Console

/-- What can happen to a started console, whether it succeeds or fails. A run of at most `n` steps
is a whole run for every `n` that it does not exhaust; one without a host has the passive host. -/
inductive Move : Console → Console → Prop
  | step (k : Console) : Move k ((onCpu Cpu.step).run k).state
  | run {η : Type} (host : Host η) (h : η) (n : Nat) (k : Console) (bus : host.UsesBus) :
    Move k { k with cpu := ((Cpu.runFor host n).run ⟨h, k.cpu⟩).state.cpu }
  | reset (k : Console) : Move k (reset.run k).state
  | triggerNmi (k : Console) : Move k { k with cpu := k.cpu.triggerNmi }
  | triggerIrq (k : Console) : Move k { k with cpu := k.cpu.triggerIrq }
  | setRegisters (r : Registers) (k : Console) : Move k { k with cpu := k.cpu.setRegisters r }
  | configure (config : CpuConfig) (k : Console) :
    Move k { k with cpu := { k.cpu with config := config } }
  | bus (op : BusOp) (k : Console) :
    Move k { k with cpu := { k.cpu with memory := (op.perform.run k.cpu.memory).state } }

end Console

namespace HoldsRom

variable {prg : List UInt8}

theorem recorded {ε α : Type} {x : Action Cpu ε α} (hx : Cpu.Recorded x) {c : Cpu}
    (h : HoldsRom prg c.memory) : HoldsRom prg (x.run c).state.memory :=
  hx.memory_induction (P := HoldsRom prg) (fun _ a v hm => hm.written a v) h

theorem after {m : Memory} (h : HoldsRom prg m) (history : List BusOp) :
    HoldsRom prg (m.after history) :=
  Memory.after_induction (fun _ a v hm => hm.written a v) h history

theorem runFor {η : Type} {host : Host η} (hb : host.UsesBus) (n : Nat) {s : Hosted η}
    (h : HoldsRom prg s.cpu.memory) :
    HoldsRom prg ((Cpu.runFor host n).run s).state.cpu.memory := by
  have hstep : Action.Keeps (fun c : Cpu => HoldsRom prg c.memory) Cpu.step :=
    fun c hc => hc.recorded Cpu.recorded_step
  refine Cpu.keeps_runFor hstep (fun h tick c hc => ?_) n s h
  obtain ⟨history, hm⟩ := hb h tick c.memory
  show HoldsRom prg (host h tick c.memory).memory
  rw [hm]
  exact hc.after history

theorem move {j k : Console} (h : HoldsRom prg j.cpu.memory) (hmove : j.Move k) :
    HoldsRom prg k.cpu.memory := by
  cases hmove with
  | step => exact h.recorded Cpu.recorded_step
  | run host s n _ bus => exact h.runFor bus n
  | reset =>
    obtain ⟨x, hx, heq⟩ := Console.exists_recorded_reset
    rw [heq]
    exact h.recorded hx
  | triggerNmi | triggerIrq | setRegisters | configure => exact h
  | bus op =>
    show HoldsRom prg (op.perform.run j.cpu.memory).state
    exact h.after [op]

theorem moves {j k : Console} (h : HoldsRom prg j.cpu.memory)
    (hmoves : Relation.ReflTransGen Console.Move j k) : HoldsRom prg k.cpu.memory := by
  induction hmoves with
  | refl => exact h
  | tail _ hmove ih => exact ih.move hmove

end HoldsRom

/-- **ROM integrity.** A console with a cartridge without a mapper starts, and whatever moves
follow, its ROM stays mapped and the bus reads from `$8000` on as the cartridge's program ROM. -/
theorem rom_reads_as_cartridge {data : List UInt8} {c : Cartridge}
    (hc : Cartridge.ofBytes data = .ok c) (hm : c.header.mapper = 0) (config : ConsoleConfig) :
    (Console.start c config).result = .ok () ∧
      ∀ k, Relation.ReflTransGen Console.Move (Console.start c config).state k →
        k.cpu.memory.romMapped = true ∧
          ∀ a, romStart ≤ a → k.cpu.memory.read a = .ok (romByte c.prg a) := by
  obtain ⟨hok, hstate⟩ := Console.start_of_nrom hm config
  refine ⟨hok, fun k hk => ?_⟩
  have hinsert := holdsRom_insert config.policy (Cartridge.trainer_length_le hc)
  have hstarted : HoldsRom c.prg (Console.start c config).state.cpu.memory := by
    rw [hstate]
    exact HoldsRom.move hinsert (.reset _)
  have hrom : HoldsRom c.prg k.cpu.memory := hstarted.moves hk
  exact ⟨hrom.romMapped, fun a ha => hrom.read ha⟩

/-- A ROM of one byte, after a write to it. -/
theorem rom_reads_as_cartridge_after_write :
    ∃ c, Cartridge.ofBytes
        [0x4E, 0x45, 0x53, 0x1A, 0, 0, 0, 0x08, 0, 0x0F, 0, 0, 0, 0, 0, 0, 0xEA] = .ok c ∧
      c.header.mapper = 0 ∧
      let m := ((Bus.write 0x8000 0x55).run (Console.start c {}).state.cpu.memory).state
      m.romMapped = true ∧ m.read 0x8000 = .ok 0xEA ∧ m.read 0x8001 = .ok 0 := by
  have hdump : ∃ c, Cartridge.ofBytes
      [0x4E, 0x45, 0x53, 0x1A, 0, 0, 0, 0x08, 0, 0x0F, 0, 0, 0, 0, 0, 0, 0xEA] = .ok c ∧
      c.header.mapper = 0 ∧ c.prg = [0xEA] := ⟨_, by rfl, by rfl, by rfl⟩
  obtain ⟨c, hc, hm, hprg⟩ := hdump
  refine ⟨c, hc, hm, ?_⟩
  obtain ⟨-, h⟩ := rom_reads_as_cartridge hc hm {}
  obtain ⟨hmapped, hread⟩ := h _ (.single (.bus (.write 0x8000 0x55) _))
  rw [hprg] at hread
  have hfirst : romByte [0xEA] 0x8000 = 0xEA := by decide
  have hpast : romByte [0xEA] 0x8001 = 0 := by decide
  exact ⟨hmapped, hfirst ▸ hread 0x8000 (by decide), hpast ▸ hread 0x8001 (by decide)⟩

end NesCore
