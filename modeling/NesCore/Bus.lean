import NesCore.Action
import NesCore.Memory.Access

/-!
# The bus

Reading and writing memory as actions that put every access on record. A word is two byte
accesses, low byte first; the second follows only if the first was not refused.
-/

namespace NesCore.Bus

/-- Reads a byte. -/
def read (a : UInt16) : Action Memory BusError UInt8 :=
  ⟨fun m => ⟨[.read a (m.read a).toOption], m.read a, m⟩⟩

/-- Writes a byte. A write that a mapped ROM ignores gets a notice. -/
def write (a : UInt16) (v : UInt8) : Action Memory BusError Unit :=
  ⟨fun m =>
    match m.write a v with
    | .ok after =>
      ⟨.write a v true :: (if m.isProtected a then [.notice (.romWriteIgnored a v)] else []),
        .ok (), after⟩
    | .error e => ⟨[.write a v false], .error e, m⟩⟩

/-- Reads the word whose high byte follows its low byte. -/
def readWord (a : UInt16) : Action Memory BusError UInt16 := do
  let low ← read a
  let high ← read (a + 1)
  return Word.make low high

/-- Writes a word. -/
def writeWord (a : UInt16) (w : UInt16) : Action Memory BusError Unit := do
  write a (Word.low w)
  write (a + 1) (Word.high w)

@[simp] theorem run_read (a : UInt16) (m : Memory) :
    (read a).run m = ⟨[.read a (m.read a).toOption], m.read a, m⟩ := rfl

end NesCore.Bus
