import NesCore.Text
import NesCore.Word

/-!
# Memory

64 KiB of cells with a rule for what an address means to the processor. The cells are kept as 256
pages of 256 bytes. The theory of a cell is `cell_setCell` and, for a run of bytes, `cell_load`;
`ext_cell` says that a memory is its cells, its policy and its ROM flag.
-/

namespace NesCore

/-- What `$2000-$401F` does while no video or sound unit is attached. -/
inductive IoPolicy
  /-- Plain storage. -/
  | flat
  /-- Eight video registers repeated up to `$3FFF`, plain storage above. -/
  | mirrored
  /-- Reads give 0 and writes are dropped. -/
  | silent
  /-- Every access is refused. -/
  | fault
  deriving DecidableEq, Repr

/-- The address space of the processor. -/
structure Memory where
  pages : Vector (Vector UInt8 256) 256
  policy : IoPolicy
  /-- From `$8000` on a mapped ROM is read-only. -/
  romMapped : Bool
  deriving DecidableEq

/-! ## Addresses with a meaning -/

/-- The first address of the program ROM. -/
def romStart : UInt16 := 0x8000

/-- Where an NMI finds its handler. -/
def nmiVector : UInt16 := 0xFFFA

/-- Where a reset finds the first instruction. -/
def resetVector : UInt16 := 0xFFFC

/-- Where an IRQ and `BRK` find their handler. -/
def irqVector : UInt16 := 0xFFFE

namespace Memory

/-! ## Cells -/

/-- The number of an address's page. -/
def page (a : UInt16) : Fin 256 := ⟨a.toNat / 256, by have := a.toNat_lt; omega⟩

/-- The place of an address within its page. -/
def offset (a : UInt16) : Fin 256 := ⟨a.toNat % 256, by omega⟩

/-- The byte stored at a raw address. -/
def cell (m : Memory) (a : UInt16) : UInt8 := m.pages[page a][offset a]

/-- The memory with another byte at a raw address. -/
def setCell (m : Memory) (a : UInt16) (v : UInt8) : Memory :=
  { m with pages := m.pages.set (page a) (m.pages[page a].set (offset a) v) }

/-- A memory of zeros. -/
def blank (policy : IoPolicy) : Memory where
  pages := Vector.replicate 256 (Vector.replicate 256 0)
  policy := policy
  romMapped := false

@[simp] theorem cell_blank (policy : IoPolicy) (a : UInt16) : (blank policy).cell a = 0 := by
  simp [cell, blank]

@[simp] theorem policy_setCell (m : Memory) (a : UInt16) (v : UInt8) :
    (m.setCell a v).policy = m.policy := rfl

@[simp] theorem romMapped_setCell (m : Memory) (a : UInt16) (v : UInt8) :
    (m.setCell a v).romMapped = m.romMapped := rfl

theorem address_eq_of_page_offset {a b : UInt16} (hp : (page a).val = (page b).val)
    (ho : (offset a).val = (offset b).val) : a = b := by
  apply UInt16.toNat_inj.1
  simp only [page, offset] at hp ho
  omega

theorem cell_setCell (m : Memory) (a b : UInt16) (v : UInt8) :
    (m.setCell a v).cell b = if b = a then v else m.cell b := by
  unfold cell setCell
  by_cases hp : (page a).val = (page b).val
  · by_cases ho : (offset a).val = (offset b).val
    · simp [hp, ho, (address_eq_of_page_offset hp ho).symm]
    · have hab : b ≠ a := fun h => ho (by rw [h])
      simp [hp, Vector.getElem_set_ne _ _ ho, hab]
  · have hab : b ≠ a := fun h => hp (by rw [h])
    simp [Vector.getElem_set_ne _ _ hp, hab]

theorem cell_page_offset (m : Memory) (p o : Nat) (hp : p < 256) (ho : o < 256) :
    m.cell (UInt16.ofNat (256 * p + o)) = m.pages[p][o] := by
  have hn : (UInt16.ofNat (256 * p + o)).toNat = 256 * p + o := by
    simp only [UInt16.toNat_ofNat']
    omega
  have h1 : (256 * p + o) / 256 = p := by omega
  have h2 : (256 * p + o) % 256 = o := by omega
  simp only [cell, page, offset, Fin.getElem_fin, hn, h1, h2]

/-- Two memories with the same cells, policy and ROM flag are equal. -/
theorem ext_cell {m n : Memory} (hc : ∀ a, m.cell a = n.cell a) (hp : m.policy = n.policy)
    (hr : m.romMapped = n.romMapped) : m = n := by
  have hpages : m.pages = n.pages := by
    apply Vector.ext
    intro p hpl
    apply Vector.ext
    intro o hol
    rw [← cell_page_offset m p o hpl hol, ← cell_page_offset n p o hpl hol, hc]
  cases m
  cases n
  simp_all

/-! ## Runs of bytes -/

/-- Stores bytes from a raw index on. What would lie past the last cell is dropped. -/
def store (m : Memory) (index : Nat) : List UInt8 → Memory
  | [] => m
  | b :: rest =>
    if index < 65536 then (m.setCell (UInt16.ofNat index) b).store (index + 1) rest else m

/-- Stores bytes from a raw address on, past the ROM protection and the I/O policy. -/
def load (m : Memory) (start : UInt16) (bytes : List UInt8) : Memory :=
  m.store start.toNat bytes

/-- Loads a program and points the reset vector at it. -/
def loadProgram (m : Memory) (start : UInt16) (bytes : List UInt8) : Memory :=
  (m.load start bytes).load resetVector [Word.low start, Word.high start]

/-- The bytes from a raw address on, as many of the given number as there are. -/
def slice (m : Memory) (start : UInt16) (count : Nat) : List UInt8 :=
  (List.range' start.toNat (min count (65536 - start.toNat))).map fun i => m.cell (UInt16.ofNat i)

theorem policy_store (m : Memory) (index : Nat) (bytes : List UInt8) :
    (m.store index bytes).policy = m.policy := by
  induction bytes generalizing m index with
  | nil => rfl
  | cons b rest ih =>
    simp only [store]
    split
    · rw [ih, policy_setCell]
    · rfl

theorem romMapped_store (m : Memory) (index : Nat) (bytes : List UInt8) :
    (m.store index bytes).romMapped = m.romMapped := by
  induction bytes generalizing m index with
  | nil => rfl
  | cons b rest ih =>
    simp only [store]
    split
    · rw [ih, romMapped_setCell]
    · rfl

theorem cell_store (m : Memory) (index : Nat) (bytes : List UInt8) (a : UInt16) :
    (m.store index bytes).cell a =
      if index ≤ a.toNat then bytes[a.toNat - index]?.getD (m.cell a) else m.cell a := by
  induction bytes generalizing m index with
  | nil => simp [store]
  | cons b rest ih =>
    have ha := a.toNat_lt
    simp only [store]
    split
    · next hlt =>
      have hn : (UInt16.ofNat index).toNat = index := by
        simp only [UInt16.toNat_ofNat']
        omega
      rw [ih, cell_setCell]
      by_cases heq : a = UInt16.ofNat index
      · have : a.toNat = index := by rw [heq, hn]
        rw [if_neg (by omega), if_pos heq, if_pos (by omega)]
        simp [this]
      · have hne : a.toNat ≠ index := fun h => heq (UInt16.toNat_inj.1 (by rw [hn, h]))
        rw [if_neg heq]
        by_cases hle : index ≤ a.toNat
        · rw [if_pos hle, if_pos (by omega)]
          obtain ⟨d, hd⟩ : ∃ d, a.toNat - index = d + 1 := ⟨a.toNat - index - 1, by omega⟩
          rw [hd, show a.toNat - (index + 1) = d by omega]
          simp
        · rw [if_neg hle, if_neg (by omega)]
    · next hge => rw [if_neg (by omega)]

@[simp] theorem policy_load (m : Memory) (start : UInt16) (bytes : List UInt8) :
    (m.load start bytes).policy = m.policy := policy_store ..

@[simp] theorem romMapped_load (m : Memory) (start : UInt16) (bytes : List UInt8) :
    (m.load start bytes).romMapped = m.romMapped := romMapped_store ..

theorem cell_load (m : Memory) (start : UInt16) (bytes : List UInt8) (a : UInt16) :
    (m.load start bytes).cell a =
      if start.toNat ≤ a.toNat then bytes[a.toNat - start.toNat]?.getD (m.cell a)
      else m.cell a := cell_store ..

end Memory

end NesCore
