import NesCore.Proofs.Course.Reset
import NesCore.Proofs.Invariant
import NesCore.Proofs.RomIntegrity

/-!
# Starting and resetting a console

A console starts exactly with a board without a mapper, and then its processor is in the state
`Console.fresh`. A reset leads back to that state from anywhere (`Console.state_reset`), with the
memory of the moment: registers, cycles and latches are set anew, and the entry point is read from
the ROM, which no move changes (`HoldsRom.entryPoint_eq`).

Main statement: `console_reset`.
-/

namespace NesCore

/-! ## Mapper numbers -/

namespace Cartridge

/-- The mapper number of a dump: eight bits, and four more above them in an NES 2.0 dump. -/
def mapperOf (data : List UInt8) : Nat :=
  let byte (i : Nat) : UInt8 := data.getD i 0
  let low := 16 * ((byte 7).toNat / 16) + (byte 6).toNat / 16
  if byte 7 &&& 0x0C = 0x08 then 256 * ((byte 8).toNat % 16) + low else low

theorem mapperOf_lt (data : List UInt8) : mapperOf data < 4096 := by
  have h6 := (data.getD 6 0).toNat_lt
  have h7 := (data.getD 7 0).toNat_lt
  unfold mapperOf
  dsimp only
  split_ifs <;> omega

theorem toNat_mapper {data : List UInt8} {c : Cartridge} (hc : ofBytes data = .ok c) :
    c.header.mapper.toNat = mapperOf data := by
  obtain ⟨header, hparse, -, rfl⟩ := ofBytes_eq_ok_iff.1 hc
  obtain ⟨-, -, rfl⟩ := Header.parse_eq_ok_iff.1 hparse
  have hmapper : (Header.fields data).mapper = UInt16.ofNat (mapperOf data) := by
    unfold Header.fields mapperOf
    simp only [beq_iff_eq, Header.detect_eq_nes2_iff]
  have hlt := mapperOf_lt data
  show (Header.fields data).mapper.toNat = mapperOf data
  rw [hmapper, UInt16.toNat_ofNat']
  omega

end Cartridge

/-! ## Entry points -/

/-- Where a console starts: at the reset vector, or at the ROM if that is zero. -/
def Memory.entryPoint (m : Memory) : UInt16 := if m.resetWord = 0 then romStart else m.resetWord

/-- The entry point lies in the ROM. -/
theorem HoldsRom.entryPoint_eq {prg : List UInt8} {m n : Memory} (hm : HoldsRom prg m)
    (hn : HoldsRom prg n) : m.entryPoint = n.entryPoint := by
  have hword : m.resetWord = n.resetWord := by
    unfold Memory.resetWord
    rw [hm.cell _ (by decide), hm.cell _ (by decide), hn.cell _ (by decide),
      hn.cell _ (by decide)]
  unfold Memory.entryPoint
  rw [hword]

theorem Cpu.pc_restarted (c : Cpu) : c.restarted.pc = c.memory.resetWord := by
  have hlow : c.memory.peek resetVector = c.memory.cell resetVector :=
    Memory.peek_of_rom (by decide)
  have hhigh : c.memory.peek (resetVector + 1) = c.memory.cell (resetVector + 1) :=
    Memory.peek_of_rom (by decide)
  show Word.make _ _ = Word.make _ _
  rw [hlow, hhigh]

namespace Console

open NesCore.Action

/-! ## Resets -/

/-- The processor of a console that has just been started or reset. -/
def fresh (config : CpuConfig) (entry : UInt16) (m : Memory) : Cpu where
  a := 0
  x := 0
  y := 0
  sp := config.resetSp
  pc := entry
  status := Status.ofByte 0x24
  cycles := 7
  memory := m
  config := config
  state := .running
  nmiPending := false
  irqPending := false

/-- A reset keeps memory and settings and nothing else. -/
theorem state_reset (k : Console) :
    (reset.run k).state =
      { k with cpu := fresh k.cpu.config k.cpu.memory.entryPoint k.cpu.memory } := by
  have hpc := k.cpu.pc_restarted
  unfold reset onCpu Memory.entryPoint
  rw [run_onPart, run_bind_ok (Cpu.run_reset k.cpu), run_look_bind]
  by_cases hzero : k.cpu.memory.resetWord = 0
  · have hfallback : k.cpu.restarted.pc = 0 := hpc.trans hzero
    rw [if_pos hzero]
    dsimp only [id]
    rw [if_pos hfallback]
    rfl
  · have hvector : ¬ k.cpu.restarted.pc = 0 := fun h => hzero (hpc.symm.trans h)
    rw [if_neg hzero]
    dsimp only [id]
    rw [if_neg hvector, ← hpc]
    rfl

/-! ## Settings and cartridge along moves -/

/-- The settings stay, unless it is the settings that are moved. -/
theorem Move.config_eq {j k : Console} (h : j.Move k) :
    k.cpu.config = j.cpu.config ∨
      ∃ config, k = { j with cpu := { j.cpu with config := config } } := by
  cases h with
  | step => exact .inl (Cpu.recorded_step j.cpu).2
  | run host h n =>
    have hstep : Keeps (fun c : Cpu => c.config = j.cpu.config) Cpu.step :=
      fun c hc => (Cpu.recorded_step c).2.trans hc
    exact .inl (Cpu.keeps_runFor hstep (fun _ _ _ hc => hc) n ⟨h, j.cpu⟩ rfl)
  | reset => exact .inl (by rw [state_reset]; rfl)
  | configure config => exact .inr ⟨config, rfl⟩
  | triggerNmi | triggerIrq | setRegisters | bus => exact .inl rfl

theorem cartridge_of_moves {j k : Console} (h : Relation.ReflTransGen Move j k) :
    k.cartridge = j.cartridge := by
  induction h with
  | refl => rfl
  | tail _ hmove ih =>
    rw [← ih]
    cases hmove <;> rfl

/-- A console with a mapper does not start. -/
theorem start_of_mapper {c : Cartridge} (hm : c.header.mapper ≠ 0) (config : ConsoleConfig) :
    (start c config).result = .error (.cartridge (.unsupportedMapper c.header.mapper)) := by
  have hrequire : c.requireNrom = .error (.unsupportedMapper c.header.mapper) := if_neg hm
  simp [start, hrequire, result_bind]

end Console

/-- **Starting and resetting.** A console with a cartridge that was read from a dump fails to start
exactly if the dump's mapper number is not zero, and names that number. Otherwise its processor is
`fresh` over the mapped image. Whatever moves follow, as long as the settings are those of the
start, a reset succeeds and makes the processor `fresh` again, with the entry point of the start and
memory as it is; only a move of the settings changes them. -/
theorem console_reset {data : List UInt8} {c : Cartridge} (hc : Cartridge.ofBytes data = .ok c)
    (config : ConsoleConfig) :
    let mapper := Cartridge.mapperOf data
    let image := (Memory.blank config.policy).insert c
    let entry := if image.resetWord = 0 then 0x8000 else image.resetWord
    let started := Console.start c config
    (mapper ≠ 0 → ∃ number : UInt16, number.toNat = mapper ∧
      started.result = .error (.cartridge (.unsupportedMapper number))) ∧
    (mapper = 0 → started.result = .ok () ∧
      started.state = ⟨Console.fresh config.cpu entry image, c⟩ ∧
      ∀ k, Relation.ReflTransGen Console.Move started.state k → k.cpu.config = config.cpu →
        (Console.reset.run k).result = .ok () ∧
        (Console.reset.run k).state = ⟨Console.fresh config.cpu entry k.cpu.memory, c⟩) ∧
    ∀ j k : Console, j.Move k → k.cpu.config = j.cpu.config ∨
      ∃ settings, k = { j with cpu := { j.cpu with config := settings } } := by
  intro mapper image entry started
  have hnumber : c.header.mapper.toNat = mapper := Cartridge.toNat_mapper hc
  refine ⟨fun hm => ?mapped, fun hm => ?started, fun j k => Console.Move.config_eq⟩
  case mapped =>
    refine ⟨c.header.mapper, hnumber, Console.start_of_mapper (fun hzero => hm ?_) config⟩
    rw [← hnumber, hzero]
    rfl
  case started =>
    have hzero : c.header.mapper = 0 := UInt16.toNat_inj.1 (hnumber.trans hm)
    obtain ⟨hok, hstate⟩ := Console.start_of_nrom hzero config
    have hfresh : started.state = ⟨Console.fresh config.cpu entry image, c⟩ :=
      hstate.trans (Console.state_reset _)
    have himage : HoldsRom c.prg image :=
      holdsRom_insert config.policy (Cartridge.trainer_length_le hc)
    refine ⟨hok, hfresh, fun k hk hconfig => ⟨Console.result_reset k, ?_⟩⟩
    have hrom : HoldsRom c.prg k.cpu.memory := by
      refine HoldsRom.moves ?_ hk
      rw [hfresh]
      exact himage
    have hcartridge : k.cartridge = c := by rw [Console.cartridge_of_moves hk, hfresh]
    rw [Console.state_reset, hconfig, hcartridge, hrom.entryPoint_eq himage]
    rfl

/-- A ROM of one byte, `BRK`, with a zero reset vector: halted by the first step, and reset. -/
theorem console_reset_of_halted :
    let data : List UInt8 :=
      [0x4E, 0x45, 0x53, 0x1A, 0, 0, 0, 0x08, 0, 0x0F, 0, 0, 0, 0, 0, 0, 0x00]
    let c := Cartridge.slices (Header.fields data) data
    let started := (Console.start c {}).state
    let k := ((Console.onCpu Cpu.step).run started).state
    Cartridge.ofBytes data = .ok c ∧ Cartridge.mapperOf data = 0 ∧
      k.cpu.state = .halted ∧ (Console.reset.run k).result = .ok () ∧
      (Console.reset.run k).state = ⟨Console.fresh {} 0x8000 k.cpu.memory, c⟩ := by
  intro data c started k
  have hc : Cartridge.ofBytes data = .ok c := by decide +kernel
  have hm : Cartridge.mapperOf data = 0 := by decide +kernel
  obtain ⟨-, hstarted, -⟩ := console_reset hc {}
  obtain ⟨-, -, hreset⟩ := hstarted hm
  have hentry : ((Memory.blank .flat).insert c).resetWord = 0 := by decide +kernel
  have hconfig : k.cpu.config = {} := by decide +kernel
  have hmove : Relation.ReflTransGen Console.Move started k := .single (.step started)
  obtain ⟨hok, hstate⟩ := hreset k hmove hconfig
  rw [if_pos hentry] at hstate
  exact ⟨hc, hm, by decide +kernel, hok, hstate⟩

end NesCore
