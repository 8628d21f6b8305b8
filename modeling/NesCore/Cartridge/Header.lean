import NesCore.Text

/-!
# The 16-byte header of a ROM dump

Bytes 0-3 are a magic number, 4 and 5 give the sizes of program and character ROM, 6 and 7 hold
flags and the low mapper bits. Bits 2-3 of byte 7 name the dump format; only NES 2.0 uses bytes 8
and 9, for more mapper and size bits. Sizes that do not fit 64 bits are held at the largest number
that does (`bounded`).
-/

namespace NesCore

/-- Why a dump is no usable cartridge. -/
inductive CartridgeError
  | invalidMagic (magic : List UInt8)
  | unsupportedMapper (mapper : UInt16)
  /-- The header promises more bytes than there are. -/
  | truncated (expected actual : Nat)
  /-- The dump could not be read at all. -/
  | unreadable (reason : String)
  deriving DecidableEq, Repr

/-- The text of an error. -/
def CartridgeError.message : CartridgeError → String
  | .invalidMagic magic =>
    let bytes := String.intercalate ", " (magic.map Text.byte)
    s!"invalid iNES magic [{bytes}], expected \"NES\\x1A\""
  | .unsupportedMapper mapper =>
    s!"unsupported mapper {mapper}, only NROM (mapper 0) is supported"
  | .truncated expected actual =>
    s!"truncated ROM: header declares {expected} bytes but only {actual} are present"
  | .unreadable reason => s!"I/O error: {reason}"

/-- How the board wires its nametables. -/
inductive Mirroring
  | horizontal
  | vertical
  | fourScreen
  deriving DecidableEq, Repr

/-- The name of a wiring in messages. -/
def Mirroring.name : Mirroring → String
  | .horizontal => "Horizontal"
  | .vertical => "Vertical"
  | .fourScreen => "FourScreen"

/-- The dump format. -/
inductive RomFormat
  | ines
  | nes2
  /-- Only bytes 0-7 can be trusted. -/
  | archaicInes
  /-- Identifier bits of an iNES dump over junk, or unknown identifier bits. -/
  | ines07
  deriving DecidableEq, Repr

namespace RomFormat

/-- The name of a format in messages. -/
def name : RomFormat → String
  | .ines => "Ines"
  | .nes2 => "Nes2"
  | .archaicInes => "ArchaicInes"
  | .ines07 => "Ines07"

/-- Bytes 8-15 follow a published layout. -/
def isStandard : RomFormat → Bool
  | .ines | .nes2 => true
  | .archaicInes | .ines07 => false

/-- The format by the flags of byte 7 and whether bytes 12-15 are zero. -/
def detect (flags7 : UInt8) (cleanTail : Bool) : RomFormat :=
  if flags7 &&& 0x0C = 0x08 then .nes2
  else if flags7 &&& 0x0C = 0x04 then .archaicInes
  else if flags7 &&& 0x0C = 0x00 && cleanTail then .ines
  else .ines07

end RomFormat

/-- What a header says. -/
structure Header where
  format : RomFormat
  /-- Bytes of program ROM. -/
  prgSize : Nat
  /-- Bytes of character ROM; with none the board has character RAM. -/
  chrSize : Nat
  mapper : UInt16
  submapper : UInt8
  mirroring : Mirroring
  battery : Bool
  trainer : Bool
  deriving DecidableEq, Repr

namespace Header

/-! ## Sizes -/

/-- Bytes in a header. -/
def size : Nat := 16

/-- Bytes in a trainer. -/
def trainerSize : Nat := 512

/-- The unit of program ROM. -/
def prgUnit : Nat := 16384

/-- The unit of character ROM. -/
def chrUnit : Nat := 8192

/-- The largest size that is told apart from larger ones, that of 64 bits. -/
def maxSize : Nat := 0xFFFFFFFFFFFFFFFF

/-- A size, or the largest one if it is larger. -/
def bounded (n : Nat) : Nat := min n maxSize

/-- A size field of twelve bits. With all four high bits set, the low byte is an exponent and a
multiplier of a number of bytes; otherwise the field counts units. -/
def extendedSize (low high : Nat) (unit : Nat) : Nat :=
  if high = 15 then bounded (Nat.pow 2 (low / 4) * (2 * (low % 4) + 1)) else (256 * high + low) * unit

/-- The length of trainer, program ROM and character ROM with the header before them. -/
def expectedLength (h : Header) : Nat :=
  bounded (size + (if h.trainer then trainerSize else 0) + h.prgSize + h.chrSize)

/-! ## Reading -/

/-- The four bytes that open a dump. -/
def magic : List UInt8 := [0x4E, 0x45, 0x53, 0x1A]

/-- The wiring: a four-screen board comes before the vertical bit. -/
def mirroringOf (flags6 : UInt8) : Mirroring :=
  if flags6.toNat.testBit 3 then .fourScreen
  else if flags6.toNat.testBit 0 then .vertical
  else .horizontal

/-- The fields of a dump of at least sixteen bytes. -/
def fields (data : List UInt8) : Header :=
  let byte (i : Nat) : UInt8 := data.getD i 0
  let format := RomFormat.detect (byte 7) ((data.drop 12).take 4 |>.all (· == 0))
  let low := 16 * ((byte 7).toNat / 16) + (byte 6).toNat / 16
  let extended := format == .nes2
  { format
    prgSize :=
      if extended then extendedSize (byte 4).toNat ((byte 9).toNat % 16) prgUnit
      else (byte 4).toNat * prgUnit
    chrSize :=
      if extended then extendedSize (byte 5).toNat ((byte 9).toNat / 16) chrUnit
      else (byte 5).toNat * chrUnit
    mapper := UInt16.ofNat (if extended then 256 * ((byte 8).toNat % 16) + low else low)
    submapper := if extended then byte 8 >>> 4 else 0
    mirroring := mirroringOf (byte 6)
    battery := (byte 6).toNat.testBit 1
    trainer := (byte 6).toNat.testBit 2 }

/-- Reads the header at the start of a dump. -/
def parse (data : List UInt8) : Except CartridgeError Header :=
  if data.length < size then .error (.truncated size data.length)
  else if data.take 4 ≠ magic then .error (.invalidMagic (data.take 4))
  else .ok (fields data)

end Header

end NesCore
