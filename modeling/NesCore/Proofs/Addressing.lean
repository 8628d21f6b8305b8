import NesCore.Proofs.Bytes
import NesCore.Proofs.Course.Operand
import NesCore.Proofs.Invariant

/-!
# Addresses by rule

The rules by which each of the thirteen modes finds its address, in numbers: which places it reads
(`placesByRule`), which address follows from the bytes there (`addressByRule`) and when the address
lies on another page than its base (`CrossesByRule`). Five wraps meet here, each in its own words:
16 bits for words and their indexes, page zero for its indexes and pointers, the page of an indirect
pointer, the sign of a displacement, and PC at the end of memory.

Main statement: `resolve_follows_rules`.
-/

namespace NesCore

/-! ## Words in numbers -/

namespace Word

variable {base : UInt16}

/-- The mask of the high byte leaves the start of the page. -/
theorem and_FF00 {n : Nat} (h : n < 65536) : n &&& 0xFF00 = n / 256 * 256 := by
  show n &&& ((2 ^ 8 - 1) * 2 ^ 8) = n / 2 ^ 8 * 2 ^ 8
  apply Nat.eq_of_testBit_eq
  intro i
  rw [Nat.testBit_and, Nat.testBit_mul_two_pow, Nat.testBit_two_pow_sub_one,
    Nat.testBit_mul_two_pow, Nat.testBit_div_two_pow]
  by_cases hlow : 8 ≤ i
  · rw [Nat.sub_add_cancel hlow]
    by_cases hhigh : i < 16
    · have hmasked : i - 8 < 8 := by omega
      simp [hlow, hmasked]
    · have hpow : 2 ^ 16 ≤ 2 ^ i := Nat.pow_le_pow_right Nat.two_pos (Nat.not_lt.1 hhigh)
      rw [Nat.testBit_lt_two_pow (Nat.lt_of_lt_of_le h hpow)]
      simp
  · simp [hlow]

/-- The address that follows in the same page, by masks: the carry out of the low byte is lost. -/
theorem toNat_nextInPage (w : UInt16) :
    (nextInPage w).toNat = (w.toNat &&& 0xFF00) ||| ((w.toNat + 1) &&& 0x00FF) := by
  have hlow : (w.toNat + 1) &&& 0x00FF = (w.toNat + 1) % 256 :=
    Nat.and_two_pow_sub_one_eq_mod (w.toNat + 1) 8
  have hdisjoint : w.toNat / 256 * 256 ||| (w.toNat + 1) % 256 =
      w.toNat / 256 * 256 + (w.toNat + 1) % 256 := by
    have hlt : (w.toNat + 1) % 256 < 2 ^ 8 := Nat.mod_lt _ (by decide)
    have hshift := Nat.shiftLeft_add_eq_or_of_lt hlt (w.toNat / 256)
    rw [Nat.shiftLeft_eq] at hshift
    exact hshift.symm
  rw [and_FF00 w.toNat_lt, hlow, hdisjoint, nextInPage, toNat_make, UInt8.toNat_add, toNat_low,
    toNat_high]
  simp
  omega

/-- A displacement adds a signed byte. -/
theorem toNat_displaced (base : UInt16) (offset : UInt8) :
    ((displaced base offset).toNat : Int) = (base.toNat + offset.toInt8.toInt) % 65536 := by
  have hbase := base.toNat_lt
  have hoffset := offset.toNat_lt
  have hsign : offset < 0x80 ↔ offset.toNat < 128 := UInt8.lt_iff_toNat_lt
  rw [Bytes.toInt_toInt8, displaced]
  simp only [hsign]
  split_ifs with h
  · rw [UInt16.toNat_add, toNat_zeroPage]
    omega
  · have hback : (0x100 - zeroPage offset).toNat = 256 - offset.toNat := by
      rw [UInt16.toNat_sub, toNat_zeroPage]
      simp
      omega
    rw [UInt16.toNat_sub, hback]
    omega

theorem crosses_iff {a b : UInt16} : crosses a b = true ↔ a.toNat / 256 ≠ b.toNat / 256 := by
  rw [crosses, bne_iff_ne, ne_eq, ← UInt8.toNat_inj, toNat_high, toNat_high]

/-- An index leads to another page exactly if it carries out of the low byte. -/
theorem crosses_index_iff {index : UInt8} :
    crosses base (base + zeroPage index) = true ↔ 255 < base.toNat % 256 + index.toNat := by
  have hbase := base.toNat_lt
  have hindex := index.toNat_lt
  rw [crosses_iff, UInt16.toNat_add, toNat_zeroPage]
  omega

/-- A displacement leads to another page exactly if it leaves the range of the low byte. -/
theorem crosses_displaced_iff {offset : UInt8} :
    crosses base (displaced base offset) = true ↔
      ¬ (0 ≤ (base.toNat % 256 : Int) + offset.toInt8.toInt ∧
        (base.toNat % 256 : Int) + offset.toInt8.toInt ≤ 255) := by
  have hbase := base.toNat_lt
  have hoffset := offset.toNat_lt
  have htarget := toNat_displaced base offset
  rw [crosses_iff]
  rw [Bytes.toInt_toInt8] at htarget ⊢
  split_ifs at htarget ⊢ <;> omega

end Word

namespace Cpu

open NesCore.Action

variable {c : Cpu} {mode : Mode}

/-! ## The rules -/

/-- The byte that the processor reads at an address. -/
def byteAt (c : Cpu) (n : Nat) : Nat := (c.memory.peek (UInt16.ofNat n)).toNat

/-- The word whose bytes the processor reads at two addresses. -/
def wordAt (c : Cpu) (low high : Nat) : Nat := c.byteAt low + 256 * c.byteAt high

/-- The place behind PC. -/
def behindPc (c : Cpu) : Nat := (c.pc.toNat + 1) % 65536

/-- Where a mode takes a pointer from: the places of its low and of its high byte. -/
def pointerByRule (c : Cpu) : Mode → Option (Nat × Nat)
  | .indirect =>
    let w := c.wordAt c.pc.toNat c.behindPc
    some (w, (w &&& 0xFF00) ||| ((w + 1) &&& 0x00FF))
  | .indirectX =>
    let p := (c.byteAt c.pc.toNat + c.x.toNat) % 256
    some (p, (p + 1) % 256)
  | .indirectY =>
    let b := c.byteAt c.pc.toNat
    some (b, (b + 1) % 256)
  | _ => none

/-- The places of the operand's bytes. An immediate is found without reading it. -/
def operandPlaces (c : Cpu) : Mode → List Nat
  | .implied | .accumulator | .immediate => []
  | .absolute | .absoluteX | .absoluteY | .indirect => [c.pc.toNat, c.behindPc]
  | _ => [c.pc.toNat]

/-- The places that a mode reads to find its address, in order. -/
def placesByRule (c : Cpu) (mode : Mode) : List Nat :=
  c.operandPlaces mode ++ (c.pointerByRule mode).elim [] fun p => [p.1, p.2]

/-- The address before an index is added: the word of the operand, or the one a pointer leads to. -/
def baseByRule (c : Cpu) (mode : Mode) : Nat :=
  let (low, high) := (c.pointerByRule mode).getD (c.pc.toNat, c.behindPc)
  c.wordAt low high

/-- The address that a mode finds. -/
def addressByRule (c : Cpu) (mode : Mode) : Option Nat :=
  let b := c.byteAt c.pc.toNat
  match mode with
  | .implied | .accumulator => none
  | .immediate => some c.pc.toNat
  | .zeroPage => some b
  | .zeroPageX => some ((b + c.x.toNat) % 256)
  | .zeroPageY => some ((b + c.y.toNat) % 256)
  | .absolute | .indirect | .indirectX => some (c.baseByRule mode)
  | .absoluteX => some ((c.baseByRule mode + c.x.toNat) % 65536)
  | .absoluteY | .indirectY => some ((c.baseByRule mode + c.y.toNat) % 65536)
  | .relative => some ((c.pc.toNat + 1 + (UInt8.ofNat b).toInt8.toInt) % 65536).toNat

/-- The address lies on another page than its base. -/
def CrossesByRule (c : Cpu) (mode : Mode) : Prop :=
  match mode with
  | .absoluteX => 255 < c.baseByRule mode % 256 + c.x.toNat
  | .absoluteY | .indirectY => 255 < c.baseByRule mode % 256 + c.y.toNat
  | .relative =>
    let low : Int := (c.pc.toNat + 1) % 256 + (UInt8.ofNat (c.byteAt c.pc.toNat)).toInt8.toInt
    ¬ (0 ≤ low ∧ low ≤ 255)
  | _ => False

/-- The byte at a place cannot be read. -/
def faultsAt (c : Cpu) (n : Nat) : Bool := !(c.memory.read (UInt16.ofNat n)).isOk

/-! ## The rules and the words -/

theorem byteAt_toNat (c : Cpu) (a : UInt16) : c.byteAt a.toNat = (c.memory.peek a).toNat := by
  rw [byteAt, UInt16.ofNat_toNat]

theorem byteAt_pc (c : Cpu) : c.byteAt c.pc.toNat = c.operandByte.toNat := c.byteAt_toNat c.pc

theorem wordAt_toNat (c : Cpu) (low high : UInt16) :
    c.wordAt low.toNat high.toNat = (c.peekWord low high).toNat := by
  rw [wordAt, byteAt_toNat, byteAt_toNat, peekWord, Word.toNat_make]

theorem behindPc_eq (c : Cpu) : c.behindPc = (c.pc + 1).toNat := (UInt16.toNat_add c.pc 1).symm

theorem wordAt_pc (c : Cpu) : c.wordAt c.pc.toNat c.behindPc = c.operandWord.toNat := by
  rw [behindPc_eq, wordAt_toNat]
  rfl

theorem pointerByRule_eq (c : Cpu) (mode : Mode) :
    c.pointerByRule mode =
      (c.pointer? mode).map fun p => (p.toNat, (Word.nextInPage p).toNat) := by
  cases mode with
  | indirect =>
    simp only [pointerByRule, pointer?, Option.map_some, wordAt_pc, Word.toNat_nextInPage]
  | indirectX | indirectY =>
    simp only [pointerByRule, pointer?, Option.map_some, byteAt_pc, Word.nextInPage_zeroPage,
      Word.toNat_zeroPage, UInt8.toNat_add]
    rfl
  | _ => rfl

theorem baseByRule_eq (c : Cpu) (mode : Mode) :
    c.baseByRule mode = ((c.pointer? mode).elim c.operandWord c.pointee).toNat := by
  rw [baseByRule, pointerByRule_eq]
  cases c.pointer? mode with
  | none => exact c.wordAt_pc
  | some p => exact c.wordAt_toNat p (Word.nextInPage p)

/-- The places of the rules are the reads that `resolve` demands. -/
theorem resolveDemands_eq (c : Cpu) (mode : Mode) :
    c.resolveDemands mode = (c.placesByRule mode).map fun n => .read (UInt16.ofNat n) := by
  have hpointer : c.pointerReads mode = ((c.pointerByRule mode).elim [] fun p => [p.1, p.2]).map
      fun n => Demand.read (UInt16.ofNat n) := by
    rw [pointerByRule_eq, pointerReads]
    cases c.pointer? mode with
    | none => rfl
    | some p => simp
  rw [placesByRule, List.map_append, ← hpointer]
  cases mode with
  | implied | accumulator | immediate => rfl
  | absolute | absoluteX | absoluteY | indirect =>
    rw [resolveDemands_of_word c rfl (by decide)]
    simp only [operandPlaces, behindPc_eq, List.map_cons, List.map_nil, UInt16.ofNat_toNat]
  | _ =>
    rw [resolveDemands_of_byte c rfl (by decide)]
    simp [operandPlaces]

theorem addressByRule_eq (c : Cpu) (mode : Mode) :
    c.addressByRule mode = (c.effectiveAddress mode).map UInt16.toNat := by
  cases mode with
  | implied | accumulator | immediate => rfl
  | zeroPage | zeroPageX | zeroPageY =>
    simp only [addressByRule, effectiveAddress, Option.map_some, byteAt_pc, Word.toNat_zeroPage,
      UInt8.toNat_add]
  | absolute | absoluteX | absoluteY | indirect | indirectX | indirectY =>
    simp only [addressByRule, effectiveAddress, Option.map_some, baseByRule_eq, pointer?,
      Option.elim_none, Option.elim_some, UInt16.toNat_add, Word.toNat_zeroPage]
  | relative =>
    have hnext : (c.pc + 1).toNat = (c.pc.toNat + 1) % 65536 := UInt16.toNat_add c.pc 1
    have htarget := Word.toNat_displaced (c.pc + 1) c.operandByte
    simp only [addressByRule, effectiveAddress, Option.map_some, byteAt_pc, UInt8.ofNat_toNat]
    congr 1
    omega

theorem crossesByRule_iff (c : Cpu) (mode : Mode) :
    c.CrossesByRule mode ↔ c.crossesPage mode = true := by
  cases mode with
  | absoluteX | absoluteY | indirectY =>
    simp only [CrossesByRule, crossesPage, Word.crosses_index_iff, baseByRule_eq, pointer?,
      Option.elim_none, Option.elim_some]
  | relative =>
    have hnext : (c.pc + 1).toNat = (c.pc.toNat + 1) % 65536 := UInt16.toNat_add c.pc 1
    simp only [CrossesByRule, crossesPage, Word.crosses_displaced_iff, byteAt_pc,
      UInt8.ofNat_toNat]
    omega
  | _ => exact iff_of_false id Bool.false_ne_true

/-! ## Refused places -/

theorem faultsAt_iff (c : Cpu) (n : Nat) :
    c.faultsAt n = true ↔ ¬ c.terms.Grants (.read (UInt16.ofNat n)) := by
  by_cases h : c.memory.policy.Refuses (UInt16.ofNat n)
  · rw [faultsAt, Memory.read_of_refuses h]
    exact iff_of_true rfl fun hg => hg h
  · rw [faultsAt, Memory.read_of_not_refuses h]
    exact iff_of_false nofun fun hg => hg h

theorem grants_of_not_faultsAt {n : Nat} (h : c.faultsAt n = false) :
    c.terms.Grants (.read (UInt16.ofNat n)) := by
  have hiff := c.faultsAt_iff n
  rw [h] at hiff
  exact not_not.1 fun hr => nomatch hiff.2 hr

/-- The places up to the first one that faults, which is still tried. -/
def triedPlaces (c : Cpu) : List Nat → List Nat
  | [] => []
  | n :: rest => n :: if c.faultsAt n then [] else c.triedPlaces rest

theorem firstRefused_places (c : Cpu) (places : List Nat) :
    c.terms.firstRefused (places.map fun n => .read (UInt16.ofNat n)) =
      (places.find? c.faultsAt).map fun n => .read (UInt16.ofNat n) := by
  induction places with
  | nil => rfl
  | cons n rest ih =>
    rw [List.map_cons]
    cases h : c.faultsAt n with
    | true =>
      rw [Terms.firstRefused_cons_of_not_grants ((c.faultsAt_iff n).1 h), List.find?_cons_of_pos h]
      rfl
    | false =>
      rw [Terms.firstRefused_cons_of_grants (grants_of_not_faultsAt h),
        List.find?_cons_of_neg (by simp [h]), ih]

theorem carriedOut_places (c : Cpu) (places : List Nat) :
    c.terms.carriedOut (places.map fun n => .read (UInt16.ofNat n)) =
      (c.triedPlaces places).map fun n => .read (UInt16.ofNat n) := by
  induction places with
  | nil => rfl
  | cons n rest ih =>
    rw [List.map_cons, triedPlaces]
    cases h : c.faultsAt n with
    | true =>
      rw [Terms.carriedOut_cons_of_not_grants ((c.faultsAt_iff n).1 h)]
      rfl
    | false =>
      rw [Terms.carriedOut_cons_of_grants (grants_of_not_faultsAt h), ih]
      rfl

/-! ## All modes -/

/-- **Operands are found by the rules.** Whatever the memory holds and wherever PC points, `resolve`
reads the places of its mode in order and changes nothing. It fails if and only if one of them
faults, with the fault of the first; else the operand has the address of the rules, and its flag
for another page is theirs. -/
theorem resolve_follows_rules (c : Cpu) (mode : Mode) :
    let o := (resolve mode).run c
    o.state = c ∧
    o.accesses = (c.triedPlaces (c.placesByRule mode)).map (fun n => .read (UInt16.ofNat n)) ∧
    ((∃ e, o.result = .error e) ↔ ∃ n ∈ c.placesByRule mode, c.faultsAt n) ∧
    match (c.placesByRule mode).find? c.faultsAt with
    | some n => o.result = .error (.bus (.unmapped (UInt16.ofNat n)))
    | none => ∃ operand, o.result = .ok operand ∧ operand.mode = mode ∧
        operand.address.map UInt16.toNat = c.addressByRule mode ∧
        (operand.crossed = true ↔ c.CrossesByRule mode) := by
  intro o
  have hfollows : Follows (resolve mode) c _ _ := follows_resolve mode
  rw [resolveDemands_eq] at hfollows
  obtain ⟨haccesses, hresult⟩ := hfollows
  rw [carriedOut_places] at haccesses
  rw [firstRefused_places] at hresult
  refine ⟨still_resolve mode c, haccesses, ?_⟩
  cases hfirst : (c.placesByRule mode).find? c.faultsAt with
  | some n =>
    rw [hfirst] at hresult
    have hfault : ∃ n ∈ c.placesByRule mode, c.faultsAt n :=
      ⟨n, List.mem_of_find?_eq_some hfirst, List.find?_some hfirst⟩
    exact ⟨iff_of_true ⟨_, hresult⟩ hfault, hresult⟩
  | none =>
    rw [hfirst] at hresult
    obtain ⟨operand, hok, -, rfl, -⟩ := hresult
    have hgood : ¬ ∃ n ∈ c.placesByRule mode, c.faultsAt n := by
      rintro ⟨n, hn, hfault⟩
      exact List.find?_eq_none.1 hfirst n hn hfault
    have herror : ¬ ∃ e, o.result = .error e := by
      rintro ⟨e, he⟩
      have hboth := he.symm.trans hok
      cases hboth
    exact ⟨iff_of_false herror hgood, c.operand mode, hok, rfl, (c.addressByRule_eq mode).symm,
      (c.crossesByRule_iff mode).symm⟩

end Cpu

end NesCore
