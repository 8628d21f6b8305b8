import NesCore.Cartridge.Mapping
import NesCore.Cpu.Run

/-!
# The console

A cartridge in a processor's memory. `start` maps the cartridge and resets; only boards without a
mapper are accepted. A zero reset vector, as in a blank ROM tail, means `$8000`.
-/

namespace NesCore

/-- Why a console does not start. -/
inductive ConsoleError
  | cartridge (source : CartridgeError)
  | cpu (source : CpuError)
  deriving DecidableEq, Repr

/-- The text of the error underneath. -/
def ConsoleError.message : ConsoleError → String
  | .cartridge source => source.message
  | .cpu source => source.message

/-- The settings of a console. -/
structure ConsoleConfig where
  cpu : CpuConfig := {}
  policy : IoPolicy := .flat
  deriving DecidableEq, Repr

/-- A processor with a cartridge in its memory. -/
structure Console where
  cpu : Cpu
  cartridge : Cartridge
  deriving DecidableEq

namespace Console

open NesCore.Action

/-- A processor's action on a console. -/
def onCpu {ε α : Type} (x : Action Cpu ε α) : Action Console ε α :=
  x.onPart Console.cpu fun console cpu => { console with cpu := cpu }

/-- Resets the processor, which starts at `$8000` for a zero reset vector. -/
def reset : Action Console CpuError Unit := onCpu do
  Cpu.reset
  let c ← look id
  if c.pc = 0 then
    note (.zeroResetVector romStart)
    update fun c => { c with pc := romStart }

/-- The console before its first reset. -/
def assemble (cartridge : Cartridge) (config : ConsoleConfig) : Console where
  cpu := Cpu.ofMemory ((Memory.blank config.policy).insert cartridge) config.cpu
  cartridge := cartridge

/-- Starts a console with a cartridge. -/
def start (cartridge : Cartridge) (config : ConsoleConfig) : Outcome Console ConsoleError Unit :=
  let boot : Action Console ConsoleError Unit := do
    if let .error e := cartridge.requireNrom then fail (.cartridge e)
    note (← look fun console => console.cpu.memory.mappedNotice cartridge)
    reset.mapError .cpu
    note (.consoleReady cartridge.header cartridge.prg.length cartridge.chr.length)
  boot.run (assemble cartridge config)

end Console

end NesCore
