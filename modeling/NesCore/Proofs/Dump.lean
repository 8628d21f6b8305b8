import Mathlib.Data.List.GetD
import Mathlib.Data.Nat.Bitwise
import Mathlib.Tactic.SplitIfs
import NesCore.Cartridge.Basic

/-!
# Well-formed dumps

What a header promises, read off its bytes in exact numbers (`Promise`), against the sizes that the
loader computes in 64 bits: the length that it expects is the promised one, held at the bound
(`expectedLength_fields`). A size that does not fit is larger than any dump, so the bound makes no
difference (`expectedLength_le_iff`), and what is accepted is long enough for every part
(`fields_of_wellFormed`).

Main statement: `ofBytes_accepts_exactly_well_formed`.
-/

namespace NesCore

/-! ## Promises -/

/-- What the header of a dump promises behind itself. -/
structure Promise where
  trainer : Bool
  /-- Bytes of program ROM. -/
  prg : Nat
  /-- Bytes of character ROM. -/
  chr : Nat
  deriving DecidableEq, Repr

namespace Promise

/-- A size by its low byte and the nibble above it: a number of units, or with a nibble of `$F` an
exponent and a multiplier of a number of bytes. -/
def extended (low nibble : UInt8) (unit : Nat) : Nat :=
  if nibble = 0x0F then 2 ^ (low >>> 2).toNat * (2 * (low &&& 0x03).toNat + 1)
  else (256 * nibble.toNat + low.toNat) * unit

/-- The promise of a dump of at least sixteen bytes. -/
def ofDump (data : List UInt8) : Promise :=
  let byte (i : Nat) : UInt8 := data.getD i 0
  let isNes2 := byte 7 &&& 0x0C = 0x08
  { trainer := byte 6 &&& 0x04 ≠ 0
    prg :=
      if isNes2 then extended (byte 4) (byte 9 &&& 0x0F) 16384 else (byte 4).toNat * 16384
    chr :=
      if isNes2 then extended (byte 5) (byte 9 >>> 4) 8192 else (byte 5).toNat * 8192 }

/-- The length of a dump that keeps the promise, header included. -/
def length (p : Promise) : Nat := 16 + (if p.trainer then 512 else 0) + p.prg + p.chr

end Promise

/-- The dump has a header and is as long as that promises. -/
structure WellFormed (data : List UInt8) : Prop where
  header : 16 ≤ data.length
  magic : data.take 4 = [0x4E, 0x45, 0x53, 0x1A]
  complete : (Promise.ofDump data).length ≤ data.length

/-! ## Sizes in 64 bits -/

namespace Header

theorem toNat_and_3 (b : UInt8) : (b &&& 0x03).toNat = b.toNat % 4 := by
  rw [UInt8.toNat_and]
  exact Nat.and_two_pow_sub_one_eq_mod b.toNat 2

theorem toNat_and_15 (b : UInt8) : (b &&& 0x0F).toNat = b.toNat % 16 := by
  rw [UInt8.toNat_and]
  exact Nat.and_two_pow_sub_one_eq_mod b.toNat 4

theorem toNat_shiftRight_2 (b : UInt8) : (b >>> 2).toNat = b.toNat / 4 := by
  rw [UInt8.toNat_shiftRight]
  exact Nat.shiftRight_eq_div_pow b.toNat 2

theorem toNat_shiftRight_4 (b : UInt8) : (b >>> 4).toNat = b.toNat / 16 := by
  rw [UInt8.toNat_shiftRight]
  exact Nat.shiftRight_eq_div_pow b.toNat 4

theorem testBit_2 (b : UInt8) : b.toNat.testBit 2 = decide (b &&& 0x04 ≠ 0) := by
  have hand : (b &&& 0x04).toNat = (b.toNat.testBit 2).toNat * 4 := by
    rw [UInt8.toNat_and]
    exact Nat.and_two_pow b.toNat 2
  rw [Bool.eq_iff_iff, decide_eq_true_iff, ne_eq, ← UInt8.toNat_inj, hand]
  cases b.toNat.testBit 2 <;> decide

theorem detect_eq_nes2_iff {flags7 : UInt8} {cleanTail : Bool} :
    RomFormat.detect flags7 cleanTail = .nes2 ↔ flags7 &&& 0x0C = 0x08 := by
  unfold RomFormat.detect
  split_ifs <;> simp_all

theorem bounded_of_le {n : Nat} (h : n ≤ maxSize) : bounded n = n := Nat.min_eq_left h

theorem bounded_le_iff {n m : Nat} (h : m < maxSize) : bounded n ≤ m ↔ n ≤ m := by
  unfold bounded
  omega

/-- A size of the header is the promised one, held at the bound. -/
theorem extendedSize_eq (low nibble : UInt8) {unit : Nat} (h : unit ≤ 16384) :
    extendedSize low.toNat nibble.toNat unit = bounded (Promise.extended low nibble unit) := by
  have hlow := low.toNat_lt
  have hnibble := nibble.toNat_lt
  have hf : nibble.toNat = 15 ↔ nibble = 0x0F := UInt8.toNat_inj (b := 0x0F)
  unfold extendedSize Promise.extended
  simp only [hf, toNat_and_3, toNat_shiftRight_2]
  split_ifs
  · rfl
  · have hsize : (256 * nibble.toNat + low.toNat) * unit ≤ 65536 * 16384 :=
      Nat.mul_le_mul (by omega) h
    exact (bounded_of_le (Nat.le_trans hsize (by decide))).symm

theorem size_eq (low : UInt8) {unit : Nat} (h : unit ≤ 16384) :
    low.toNat * unit = bounded (low.toNat * unit) := by
  have hlow := low.toNat_lt
  have hsize : low.toNat * unit ≤ 256 * 16384 := Nat.mul_le_mul (by omega) h
  exact (bounded_of_le (Nat.le_trans hsize (by decide))).symm

/-- A header holds what its dump promises, held at the bound. -/
theorem fields_eq_promise (data : List UInt8) :
    (fields data).trainer = (Promise.ofDump data).trainer ∧
      (fields data).prgSize = bounded (Promise.ofDump data).prg ∧
      (fields data).chrSize = bounded (Promise.ofDump data).chr := by
  unfold fields Promise.ofDump
  simp only [beq_iff_eq, detect_eq_nes2_iff, testBit_2, ← toNat_and_15, ← toNat_shiftRight_4]
  refine ⟨trivial, ?_, ?_⟩
  · split_ifs
    · exact extendedSize_eq _ _ (by decide)
    · exact size_eq _ (by decide)
  · split_ifs
    · exact extendedSize_eq _ _ (by decide)
    · exact size_eq _ (by decide)

/-- Held at the bound before an addition or only after it, a sum is the same. -/
theorem bounded_add_bounded (a b : Nat) : bounded (a + bounded b) = bounded (a + b) := by
  unfold bounded
  omega

/-- The expected length is the promised one, held at the bound. -/
theorem expectedLength_fields (data : List UInt8) :
    (fields data).expectedLength = bounded (Promise.ofDump data).length := by
  obtain ⟨htrainer, hprg, hchr⟩ := fields_eq_promise data
  let promise := Promise.ofDump data
  let before := 16 + (if promise.trainer then 512 else 0)
  unfold expectedLength size trainerSize
  rw [htrainer, hprg, hchr]
  calc bounded (before + bounded promise.prg + bounded promise.chr)
      = bounded (before + bounded promise.prg + promise.chr) := bounded_add_bounded _ _
    _ = bounded (before + promise.chr + bounded promise.prg) := by rw [Nat.add_right_comm]
    _ = bounded (before + promise.chr + promise.prg) := bounded_add_bounded _ _
    _ = bounded promise.length := by rw [Nat.add_right_comm]; rfl

/-- The promise does not fit the dump exactly if the bounded one does not. -/
theorem expectedLength_le_iff {data : List UInt8} (h : data.length < maxSize) :
    (fields data).expectedLength ≤ data.length ↔
      (Promise.ofDump data).length ≤ data.length := by
  rw [expectedLength_fields, bounded_le_iff h]

theorem parse_eq_ok_iff {data : List UInt8} {header : Header} :
    parse data = .ok header ↔
      16 ≤ data.length ∧ data.take 4 = magic ∧ header = fields data := by
  unfold parse size
  split_ifs with hlen hmagic
  · exact iff_of_false nofun fun h => absurd h.1 (by omega)
  · exact iff_of_false nofun fun h => hmagic h.2.1
  · constructor
    · intro h
      cases h
      exact ⟨by omega, not_not.1 hmagic, rfl⟩
    · rintro ⟨-, -, rfl⟩
      rfl

/-- What comes behind the header does not change what it says. -/
theorem fields_append {data : List UInt8} (h : 16 ≤ data.length) (extra : List UInt8) :
    fields (data ++ extra) = fields data := by
  have hbyte (i : Nat) (hi : i < 16) : (data ++ extra).getD i 0 = data.getD i 0 :=
    List.getD_append _ _ _ _ (by omega)
  have htail : ((data ++ extra).drop 12).take 4 = (data.drop 12).take 4 := by
    rw [List.drop_append_of_le_length (by omega), List.take_append_of_le_length]
    rw [List.length_drop]
    omega
  unfold fields
  simp (disch := decide) only [htail, hbyte]

end Header

/-! ## Slices -/

namespace Cartridge

/-- A dump is taken apart if its header can be read and promises no more bytes than there are. -/
theorem ofBytes_eq_ok_iff {data : List UInt8} {c : Cartridge} :
    ofBytes data = .ok c ↔
      ∃ header, Header.parse data = .ok header ∧ header.expectedLength ≤ data.length ∧
        c = slices header data := by
  unfold ofBytes
  cases hparse : Header.parse data with
  | error e => simp [bind, Except.bind]
  | ok header =>
    by_cases hlen : data.length < header.expectedLength
    · have hle : ¬ header.expectedLength ≤ data.length := by omega
      simp [bind, Except.bind, hlen, hle, throw, throwThe, MonadExceptOf.throw]
    · have hle : header.expectedLength ≤ data.length := by omega
      simp [bind, Except.bind, hlen, hle, pure, Except.pure, eq_comm]

theorem ofBytes_eq_ok_iff_wellFormed {data : List UInt8} (h : data.length < Header.maxSize)
    {c : Cartridge} :
    ofBytes data = .ok c ↔ WellFormed data ∧ c = slices (Header.fields data) data := by
  rw [ofBytes_eq_ok_iff]
  constructor
  · rintro ⟨header, hparse, hlen, rfl⟩
    obtain ⟨hheader, hmagic, rfl⟩ := Header.parse_eq_ok_iff.1 hparse
    exact ⟨⟨hheader, hmagic, (Header.expectedLength_le_iff h).1 hlen⟩, rfl⟩
  · rintro ⟨⟨hheader, hmagic, hcomplete⟩, rfl⟩
    exact ⟨_, Header.parse_eq_ok_iff.2 ⟨hheader, hmagic, rfl⟩,
      (Header.expectedLength_le_iff h).2 hcomplete, rfl⟩

section Slices

variable {header : Header} {data : List UInt8}

/-- Bytes before the ROM images. -/
def imagesStart (header : Header) : Nat := 16 + (if header.trainer then 512 else 0)

/-- Bytes up to the end of the ROM images, which is where the last slice ends. -/
def imagesEnd (header : Header) : Nat := imagesStart header + header.prgSize + header.chrSize

theorem drop_imagesStart (header : Header) (data : List UInt8) :
    data.drop (imagesStart header) =
      if header.trainer then (data.drop 16).drop 512 else data.drop 16 := by
  unfold imagesStart
  cases header.trainer with
  | false => rfl
  | true => exact (List.drop_drop (i := 512) (j := 16)).symm

/-- The slices by where they start in the dump. -/
theorem slices_eq (header : Header) (data : List UInt8) :
    slices header data =
      { header
        trainer := if header.trainer then some ((data.drop 16).take 512) else none
        prg := (data.drop (imagesStart header)).take header.prgSize
        chr := ((data.drop (imagesStart header)).drop header.prgSize).take header.chrSize } := by
  rw [drop_imagesStart]
  rfl

/-- Where the last slice ends within the dump, every part has its length. -/
theorem length_slices (h : imagesEnd header ≤ data.length) :
    (slices header data).trainer.map List.length =
        (if header.trainer then some 512 else none) ∧
      (slices header data).prg.length = header.prgSize ∧
      (slices header data).chr.length = header.chrSize := by
  rw [slices_eq]
  unfold imagesEnd imagesStart at *
  refine ⟨?_, ?_, ?_⟩
  · dsimp only
    split_ifs with ht
    · rw [if_pos ht] at h
      simp only [Option.map_some, List.length_take, List.length_drop, Option.some.injEq]
      omega
    · rfl
  · rw [List.length_take, List.length_drop]
    omega
  · rw [List.length_take, List.length_drop, List.length_drop]
    omega

/-- Header, trainer and ROM images follow one another without a gap. -/
theorem append_slices (header : Header) (data : List UInt8) :
    let c := slices header data
    ∃ rest, data = data.take 16 ++ c.trainer.getD [] ++ c.prg ++ c.chr ++ rest := by
  intro c
  let images := data.drop (imagesStart header)
  have hc : c = _ := slices_eq header data
  have himages : c.prg ++ (c.chr ++ (images.drop header.prgSize).drop header.chrSize) = images := by
    rw [hc, List.take_append_drop, List.take_append_drop]
  have hcontent : c.trainer.getD [] ++ images = data.drop 16 := by
    show _ ++ data.drop (imagesStart header) = _
    rw [hc, drop_imagesStart]
    cases header.trainer with
    | false => rfl
    | true => exact List.take_append_drop 512 _
  refine ⟨(images.drop header.prgSize).drop header.chrSize, ?_⟩
  calc data = data.take 16 ++ data.drop 16 := (List.take_append_drop 16 data).symm
    _ = data.take 16 ++ (c.trainer.getD [] ++
          (c.prg ++ (c.chr ++ (images.drop header.prgSize).drop header.chrSize))) := by
      rw [himages, hcontent]
    _ = _ := by simp only [List.append_assoc]

/-- What comes behind the last slice is not looked at. -/
theorem slices_append (h : imagesEnd header ≤ data.length) (extra : List UInt8) :
    slices header (data ++ extra) = slices header data := by
  have htrainer : header.trainer → 512 ≤ (data.drop 16).length := by
    intro ht
    unfold imagesEnd imagesStart at h
    rw [if_pos ht] at h
    rw [List.length_drop]
    omega
  unfold imagesEnd at h
  have hprg : header.prgSize ≤ (data.drop (imagesStart header)).length := by
    rw [List.length_drop]
    omega
  have hchr : header.chrSize ≤ ((data.drop (imagesStart header)).drop header.prgSize).length := by
    rw [List.length_drop, List.length_drop]
    omega
  have hstart : 16 ≤ imagesStart header := Nat.le_add_right 16 _
  rw [slices_eq, slices_eq, List.drop_append_of_le_length (by omega),
    List.drop_append_of_le_length (by omega), List.take_append_of_le_length hprg,
    List.drop_append_of_le_length hprg, List.take_append_of_le_length hchr]
  congr 1
  split_ifs with ht
  · rw [List.take_append_of_le_length (htrainer ht)]
  · rfl

/-- The sizes of an accepted dump are below the bound, so its header holds them exactly. -/
theorem fields_of_wellFormed (h : data.length < Header.maxSize) (hw : WellFormed data) :
    let header := Header.fields data
    header.prgSize = (Promise.ofDump data).prg ∧ header.chrSize = (Promise.ofDump data).chr ∧
      imagesEnd header ≤ data.length := by
  obtain ⟨htrainer, hprg, hchr⟩ := Header.fields_eq_promise data
  have hcomplete := hw.complete
  unfold Promise.length at hcomplete
  rw [Header.bounded_of_le (by omega)] at hprg hchr
  refine ⟨hprg, hchr, ?_⟩
  unfold imagesEnd imagesStart
  rw [htrainer, hprg, hchr]
  exact hcomplete

/-- The trainer of an accepted dump is there in full. -/
theorem length_trainer {c : Cartridge} (h : ofBytes data = .ok c) :
    ∀ trainer ∈ c.trainer, trainer.length = 512 := by
  obtain ⟨header, -, hlen, rfl⟩ := ofBytes_eq_ok_iff.1 h
  intro trainer ht
  rw [slices_eq, Option.mem_def] at ht
  dsimp only at ht
  split_ifs at ht with hheader
  have hlong : 528 ≤ header.expectedLength := by
    unfold Header.expectedLength Header.bounded Header.size Header.trainerSize Header.maxSize
    rw [if_pos hheader]
    omega
  rw [← Option.some.inj ht, List.length_take, List.length_drop]
  omega

/-- **The loader accepts exactly the well-formed dumps and slices them without loss.** What it
accepts is header, trainer, program ROM, character ROM and a rest, each part with the promised
length and within the dump, and more bytes behind them change nothing. -/
theorem ofBytes_accepts_exactly_well_formed (h : data.length ≤ 2 ^ 63 - 1) :
    ((∃ c, ofBytes data = .ok c) ↔ WellFormed data) ∧
    ∀ c, ofBytes data = .ok c →
      let promise := Promise.ofDump data
      (∃ rest, data = data.take 16 ++ c.trainer.getD [] ++ c.prg ++ c.chr ++ rest) ∧
      c.trainer.map List.length = (if promise.trainer then some 512 else none) ∧
      c.prg.length = promise.prg ∧ c.chr.length = promise.chr ∧
      imagesEnd c.header ≤ data.length ∧
      ∀ extra, ofBytes (data ++ extra) = .ok c := by
  have hmax : data.length < Header.maxSize := by
    unfold Header.maxSize
    omega
  have hok {c : Cartridge} := ofBytes_eq_ok_iff_wellFormed hmax (c := c)
  refine ⟨⟨fun ⟨c, hc⟩ => (hok.1 hc).1, fun hw => ⟨_, hok.2 ⟨hw, rfl⟩⟩⟩, ?_⟩
  intro c hc promise
  obtain ⟨hw, rfl⟩ := hok.1 hc
  obtain ⟨hprg, hchr, hend⟩ := fields_of_wellFormed hmax hw
  obtain ⟨htrainer, hprg', hchr'⟩ := length_slices hend
  rw [(Header.fields_eq_promise data).1] at htrainer
  refine ⟨append_slices _ data, htrainer, hprg'.trans hprg, hchr'.trans hchr, hend, ?_⟩
  intro extra
  have hheader : Header.fields (data ++ extra) = Header.fields data :=
    Header.fields_append hw.header extra
  have hlength : (data ++ extra).length = data.length + extra.length := List.length_append
  have hsixteen : 16 ≤ data.length := hw.header
  refine ofBytes_eq_ok_iff.2 ⟨Header.fields data, ?_, ?_, (slices_append hend extra).symm⟩
  · rw [Header.parse_eq_ok_iff, hheader, List.take_append_of_le_length (by omega)]
    exact ⟨by omega, hw.magic, rfl⟩
  · have hexpected := (Header.expectedLength_le_iff hmax).2 hw.complete
    omega

/-- A dump with a trainer and sizes in NES 2.0 form: six bytes of program ROM, by exponent and
multiplier, no character ROM, and one byte more. -/
theorem ofBytes_accepts_exponent_dump :
    let data := [0x4E, 0x45, 0x53, 0x1A, 0x05, 0x00, 0x04, 0x08, 0x00, 0x0F, 0, 0, 0, 0, 0, 0]
      ++ List.replicate 512 0xEA ++ [1, 2, 3, 4, 5, 6, 7]
    data.length ≤ 2 ^ 63 - 1 ∧ WellFormed data ∧
      ∃ c, ofBytes data = .ok c ∧ c.prg.length = 6 ∧ c.chr.length = 0 ∧
        ofBytes (data ++ [8]) = .ok c := by
  intro data
  have h : data.length ≤ 2 ^ 63 - 1 := by decide +kernel
  have hw : WellFormed data :=
    ⟨by decide +kernel, by decide +kernel, by decide +kernel⟩
  obtain ⟨haccepts, hslices⟩ := ofBytes_accepts_exactly_well_formed h
  obtain ⟨c, hc⟩ := haccepts.2 hw
  obtain ⟨-, -, hprg, hchr, -, hextra⟩ := hslices c hc
  exact ⟨h, hw, c, hc, hprg.trans (by decide +kernel), hchr.trans (by decide +kernel), hextra [8]⟩

/-- A header that promises more than fits 64 bits. -/
example : ofBytes [0x4E, 0x45, 0x53, 0x1A, 0xFF, 0xFF, 0, 0x08, 0, 0xFF, 0, 0, 0, 0, 0, 0] =
    .error (.truncated (2 ^ 64 - 1) 16) := by decide +kernel

end Slices

end Cartridge

end NesCore
