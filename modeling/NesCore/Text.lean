/-!
# Fixed-width text

Bytes and addresses are written in upper-case hexadecimal, two digits for a byte and four for an
address (`length_byteDigits`, `length_wordDigits`). `padded` fills a column with blanks and never
cuts text (`length_padded`).
-/

namespace NesCore.Text

/-! ## Hexadecimal digits -/

/-- The upper-case hexadecimal digit of a number below sixteen. -/
def hexDigit (n : Nat) : Char :=
  if n < 10 then Char.ofNat (48 + n) else Char.ofNat (55 + n)

/-- The two digits of a byte. -/
def byteDigits (b : UInt8) : List Char :=
  [hexDigit (b.toNat / 16), hexDigit (b.toNat % 16)]

/-- The four digits of an address. -/
def wordDigits (w : UInt16) : List Char :=
  [hexDigit (w.toNat / 4096), hexDigit (w.toNat / 256 % 16), hexDigit (w.toNat / 16 % 16),
    hexDigit (w.toNat % 16)]

@[simp] theorem length_byteDigits (b : UInt8) : (byteDigits b).length = 2 := rfl

@[simp] theorem length_wordDigits (w : UInt16) : (wordDigits w).length = 4 := rfl

/-- A byte as text. -/
def byte (b : UInt8) : String := String.ofList (byteDigits b)

/-- An address as text. -/
def word (w : UInt16) : String := String.ofList (wordDigits w)

/-! ## Columns -/

/-- Text followed by blanks up to a column width. -/
def padded (width : Nat) (text : List Char) : List Char :=
  text ++ List.replicate (width - text.length) ' '

@[simp] theorem length_padded (width : Nat) (text : List Char) :
    (padded width text).length = max width text.length := by
  simp only [padded, List.length_append, List.length_replicate]
  omega

end NesCore.Text
