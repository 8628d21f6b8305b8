import NesCore.Cartridge.Header
import NesCore.Cpu.Basic
import NesCore.Word

/-!
# Notices

What the parts of the machine tell a reader of the log, as data; `Notice.text` is the one place
where they become words, `Notice.level` gives their weight.
-/

namespace NesCore

/-- The weight of a notice. -/
inductive Level
  | warn
  | info
  | debug
  | trace
  deriving DecidableEq, Repr

/-- The name of a level in the log. -/
def Level.name : Level → String
  | .warn => "WARN"
  | .info => "INFO"
  | .debug => "DEBUG"
  | .trace => "TRACE"

/-- Something worth a line in the log. -/
inductive Notice
  /-- A dump was read from a file. -/
  | fileRead (length : Nat) (path : String)
  /-- The header may carry junk past byte 7. -/
  | doubtfulHeader (format : RomFormat) (mapper : UInt16)
  | trailingBytes (count : Nat)
  /-- A dump was taken apart; sizes are those of the ROM images. -/
  | cartridgeRead (format : RomFormat) (mapper : UInt16) (prg chr : Nat) (mirroring : Mirroring)
  | romMapped (prg : Nat) (start : UInt16)
  | romWriteIgnored (address : UInt16) (value : UInt8)
  | reset (pc : UInt16) (sp : UInt8)
  | interruptTaken (interrupt : Interrupt) (pc : UInt16)
  | irqMasked
  | haltedOnBreak (pc : UInt16)
  | stackWrapped (wrap : StackWrap) (pc : UInt16) (sp : UInt8)
  | zeroResetVector (start : UInt16)
  /-- A console is ready with a cartridge of this header and these ROM sizes. -/
  | consoleReady (header : Header) (prg chr : Nat)
  deriving DecidableEq, Repr

namespace Notice

/-- The weight of a notice. -/
def level : Notice → Level
  | .doubtfulHeader .. | .stackWrapped .. | .zeroResetVector _ => .warn
  | .consoleReady .. => .info
  | .interruptTaken .. | .irqMasked => .trace
  | _ => .debug

/-- Whole units of 1024 bytes. -/
def kib (n : Nat) : Nat := n / 1024

/-- The words of a notice. -/
def text : Notice → String
  | .fileRead length path => s!"read {length} bytes from {path}"
  | .doubtfulHeader format mapper =>
    s!"{format.name} header: bytes 8-15 ignored, mapper {mapper} may be wrong"
  | .trailingBytes count => s!"{count} trailing bytes after CHR ROM ignored"
  | .cartridgeRead format mapper prg chr mirroring =>
    s!"{format.name} cartridge: mapper {mapper}, {kib prg} KiB PRG, {kib chr} KiB CHR, "
      ++ s!"{mirroring.name} mirroring"
  | .romMapped prg start =>
    s!"mapped {kib prg} KiB PRG ROM at $8000, reset vector ${Text.word start}"
  | .romWriteIgnored address value =>
    s!"ignored write of ${Text.byte value} to PRG ROM at ${Text.word address}"
  | .reset pc sp => s!"reset: PC=${Text.word pc} SP=${Text.byte sp}"
  | .interruptTaken interrupt pc => s!"{interrupt.name} taken, PC=${Text.word pc}"
  | .irqMasked => "IRQ ignored, I flag set"
  | .haltedOnBreak pc => s!"halted on BRK at ${Text.word pc}"
  | .stackWrapped wrap pc sp =>
    s!"stack {wrap.name} at ${Text.word pc} (SP=${Text.byte sp})"
  | .zeroResetVector start => s!"reset vector is $0000, starting at ${Text.word start}"
  | .consoleReady header prg chr =>
    s!"loaded {header.format.name} ROM: mapper {header.mapper}, {kib prg} KiB PRG, "
      ++ (if chr = 0 then "CHR RAM" else s!"{kib chr} KiB CHR")
      ++ s!", {header.mirroring.name} mirroring"
      ++ (if header.battery then ", battery" else "")

end Notice

end NesCore
