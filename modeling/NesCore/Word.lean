/-!
# Addresses as two bytes

An address is a low byte and a high byte; the high byte is the number of its page. `toNat_make`
gives the value of a word, `make_low_high` takes a word apart and puts it together.
-/

namespace NesCore.Word

/-- The word with the given low and high byte. -/
def make (low high : UInt8) : UInt16 := UInt16.ofNat (low.toNat + 256 * high.toNat)

/-- The low byte, the place within the page. -/
def low (w : UInt16) : UInt8 := UInt8.ofNat (w.toNat % 256)

/-- The high byte, the number of the page. -/
def high (w : UInt16) : UInt8 := UInt8.ofNat (w.toNat / 256)

/-- A byte as an address of page zero. -/
def zeroPage (b : UInt8) : UInt16 := UInt16.ofNat b.toNat

/-- The address reached by a signed displacement: offsets from `$80` on go back. -/
def displaced (base : UInt16) (offset : UInt8) : UInt16 :=
  if offset < 0x80 then base + zeroPage offset else base - (0x100 - zeroPage offset)

/-- Two addresses lie on different pages. -/
def crosses (a b : UInt16) : Bool := high a != high b

@[simp] theorem toNat_low (w : UInt16) : (low w).toNat = w.toNat % 256 := by
  simp [low]

@[simp] theorem toNat_high (w : UInt16) : (high w).toNat = w.toNat / 256 := by
  have := w.toNat_lt
  simp only [high, UInt8.toNat_ofNat']
  omega

@[simp] theorem toNat_zeroPage (b : UInt8) : (zeroPage b).toNat = b.toNat := by
  have := b.toNat_lt
  simp only [zeroPage, UInt16.toNat_ofNat']
  omega

@[simp] theorem toNat_make (l h : UInt8) : (make l h).toNat = l.toNat + 256 * h.toNat := by
  have := l.toNat_lt
  have := h.toNat_lt
  simp only [make, UInt16.toNat_ofNat']
  omega

@[simp] theorem low_make (l h : UInt8) : low (make l h) = l := by
  have := l.toNat_lt
  apply UInt8.toNat_inj.1
  simp only [toNat_low, toNat_make]
  omega

@[simp] theorem high_make (l h : UInt8) : high (make l h) = h := by
  have := l.toNat_lt
  apply UInt8.toNat_inj.1
  simp only [toNat_high, toNat_make]
  omega

@[simp] theorem make_low_high (w : UInt16) : make (low w) (high w) = w := by
  apply UInt16.toNat_inj.1
  simp only [toNat_make, toNat_low, toNat_high]
  omega

end NesCore.Word
