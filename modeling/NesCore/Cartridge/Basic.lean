import NesCore.Cartridge.Header
import NesCore.Notice

/-!
# Cartridges

A dump is its header, a trainer if the header announces one, the program ROM, the character ROM
and bytes that belong to nothing. A dump shorter than its header promises is refused.
-/

namespace NesCore

/-- A dump taken apart. -/
structure Cartridge where
  header : Header
  /-- Code for `$7000-$71FF`. -/
  trainer : Option (List UInt8)
  prg : List UInt8
  chr : List UInt8
  deriving DecidableEq, Repr

namespace Cartridge

/-- The parts of a dump that is long enough for its header. -/
def slices (header : Header) (data : List UInt8) : Cartridge :=
  let content := data.drop Header.size
  let images := if header.trainer then content.drop Header.trainerSize else content
  { header
    trainer := if header.trainer then some (content.take Header.trainerSize) else none
    prg := images.take header.prgSize
    chr := (images.drop header.prgSize).take header.chrSize }

/-- Takes a dump apart. -/
def ofBytes (data : List UInt8) : Except CartridgeError Cartridge := do
  let header ← Header.parse data
  if data.length < header.expectedLength then
    throw (.truncated header.expectedLength data.length)
  return slices header data

/-- The board has no character ROM, so it carries RAM in its place. -/
def usesChrRam (c : Cartridge) : Bool := c.chr.isEmpty

/-- Only boards without a mapper are known. -/
def requireNrom (c : Cartridge) : Except CartridgeError Unit :=
  if c.header.mapper = 0 then .ok () else .error (.unsupportedMapper c.header.mapper)

/-- What reading a dump of the given length had to report. -/
def notices (c : Cartridge) (length : Nat) : List Notice :=
  let h := c.header
  (if h.format.isStandard then [] else [.doubtfulHeader h.format h.mapper])
    ++ (if h.expectedLength < length then [.trailingBytes (length - h.expectedLength)] else [])
    ++ [.cartridgeRead h.format h.mapper c.prg.length c.chr.length h.mirroring]

end Cartridge

end NesCore
