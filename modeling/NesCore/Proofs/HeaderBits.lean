import NesCore.Proofs.Dump

/-!
# The bits of a header

Two dumps whose headers share the published bits are read alike. Bytes 4 to 6 and the upper six bits
of byte 7 are published in every format (`SameFlags`), bytes 8 and 9 in NES 2.0 only
(`SameExtension`), and bytes 12 to 15 tell an iNES dump from one with junk behind its flags
(`CleanTail`). All fields but the format come from the first two groups (`eq_of_sameFlags`), and the
format from byte 7 and the third (`format_congr`); what none of the groups names can be junk.

Main statement: `only_published_bits_matter`.
-/

namespace NesCore

namespace Header

variable {data data' : List UInt8} {flags flags' : UInt8} {clean clean' : Bool}

/-! ## Published bits -/

/-- A byte of a dump, zero behind its end. -/
def byteAt (data : List UInt8) (i : Nat) : UInt8 := data.getD i 0

/-- The bits of byte 7 that name the format. -/
def identifier (data : List UInt8) : UInt8 := byteAt data 7 &&& 0x0C

/-- Bytes 12 to 15 are zero. -/
def CleanTail (data : List UInt8) : Prop := ∀ i, 12 ≤ i → i < 16 → byteAt data i = 0

/-- The dump starts with a header. -/
structure HasHeader (data : List UInt8) : Prop where
  length : 16 ≤ data.length
  magic : data.take 4 = [0x4E, 0x45, 0x53, 0x1A]

/-- The dumps agree on what every format publishes, all of bytes 4 to 7 but two bits. -/
structure SameFlags (data data' : List UInt8) : Prop where
  prg : byteAt data 4 = byteAt data' 4
  chr : byteAt data 5 = byteAt data' 5
  flags6 : byteAt data 6 = byteAt data' 6
  flags7 : byteAt data 7 &&& 0xFC = byteAt data' 7 &&& 0xFC

/-- The dumps agree on the bytes that NES 2.0 adds. -/
structure SameExtension (data data' : List UInt8) : Prop where
  mapper : byteAt data 8 = byteAt data' 8
  sizes : byteAt data 9 = byteAt data' 9

/-- The dumps agree on what the format of the first one publishes. -/
structure SameBits (data data' : List UInt8) : Prop extends SameFlags data data' where
  extension : identifier data = 0x08 → SameExtension data data'
  tail : identifier data = 0x00 → (CleanTail data ↔ CleanTail data')

/-! ## The format -/

/-- The identifier and the upper nibble of byte 7 lie in its published bits. -/
theorem flags7_congr (h : flags &&& 0xFC = flags' &&& 0xFC) :
    flags &&& 0x0C = flags' &&& 0x0C ∧ flags.toNat / 16 = flags'.toNat / 16 := by
  have hmasked (mask : UInt8) (hmask : 0xFC &&& mask = mask) :
      flags &&& mask = flags' &&& mask := by
    rw [← hmask, ← UInt8.and_assoc, ← UInt8.and_assoc, h]
  have hnibble (b : UInt8) : (b &&& 0xF0).toNat / 16 = b.toNat / 16 := by
    have hlt := b.toNat_lt
    rw [← toNat_shiftRight_4, UInt8.shiftRight_and]
    exact (toNat_and_15 _).trans (by rw [toNat_shiftRight_4]; omega)
  refine ⟨hmasked 0x0C (by decide), ?_⟩
  rw [← hnibble flags, ← hnibble flags', hmasked 0xF0 (by decide)]

theorem identifier_congr (h : SameFlags data data') : identifier data = identifier data' :=
  (flags7_congr h.flags7).1

/-- The tail counts only under the identifier of iNES. -/
theorem detect_congr (h : flags &&& 0x0C = flags' &&& 0x0C)
    (htail : flags &&& 0x0C = 0x00 → clean = clean') :
    RomFormat.detect flags clean = RomFormat.detect flags' clean' := by
  unfold RomFormat.detect
  rw [← h]
  by_cases hines : flags &&& 0x0C = 0x00
  · rw [htail hines]
  · simp [hines]

theorem all_tail_iff : ((data.drop 12).take 4).all (· == 0) = true ↔ CleanTail data := by
  rw [List.all_eq_true]
  constructor
  · intro hall i hlow hhigh
    by_cases hi : i < data.length
    · have hmem : data[i] ∈ (data.drop 12).take 4 :=
        List.mem_iff_getElem.2 ⟨i - 12, by simp; omega, by simp [Nat.add_sub_cancel' hlow]⟩
      exact (List.getD_eq_getElem data 0 hi).trans (eq_of_beq (hall _ hmem))
    · exact List.getD_eq_default data 0 (by omega)
  · intro hclean x hx
    obtain ⟨i, hi, rfl⟩ := List.getElem_of_mem hx
    rw [List.length_take, List.length_drop] at hi
    rw [List.getElem_take, List.getElem_drop, ← List.getD_eq_getElem data 0]
    exact beq_iff_eq.2 (hclean (12 + i) (by omega) (by omega))

theorem format_congr (h : SameFlags data data')
    (htail : identifier data = 0x00 → (CleanTail data ↔ CleanTail data')) :
    (fields data).format = (fields data').format := by
  refine detect_congr (identifier_congr h) fun hines => ?_
  rw [Bool.eq_iff_iff, all_tail_iff, all_tail_iff]
  exact htail hines

theorem format_eq_nes2_iff : (fields data).format = .nes2 ↔ identifier data = 0x08 :=
  detect_eq_nes2_iff

/-- The tail decides between iNES and junk under the identifier of iNES. -/
theorem format_eq_ines_iff :
    (fields data).format = .ines ↔ identifier data = 0x00 ∧ CleanTail data := by
  have hdetect (clean : Bool) : RomFormat.detect (byteAt data 7) clean = .ines ↔
      identifier data = 0x00 ∧ clean = true := by
    unfold RomFormat.detect identifier
    split_ifs <;> simp_all
  rw [← all_tail_iff]
  exact hdetect _

theorem format_of_identifier_zero (h : identifier data = 0x00) :
    (fields data).format = .ines ∨ (fields data).format = .ines07 := by
  have hdetect (clean : Bool) : RomFormat.detect (byteAt data 7) clean = .ines ∨
      RomFormat.detect (byteAt data 7) clean = .ines07 := by
    have hbits : byteAt data 7 &&& 0x0C = 0x00 := h
    cases clean <;> simp [RomFormat.detect, hbits]
  exact hdetect _

/-- Where the tails differ, the one format can be that of an iNES dump and the other that of an iNES
dump over junk. -/
theorem format_eq_or (h : SameFlags data data') :
    (fields data).format = (fields data').format ∨
      ((fields data).format = .ines ∧ (fields data').format = .ines07) ∨
      ((fields data).format = .ines07 ∧ (fields data').format = .ines) := by
  by_cases hines : identifier data = 0x00
  · have hformat := format_of_identifier_zero hines
    have hformat' := format_of_identifier_zero (identifier_congr h ▸ hines)
    grind
  · exact .inl (format_congr h fun h0 => absurd h0 hines)

/-! ## The other fields -/

/-- All fields but the format come from bytes 4 to 7, and in NES 2.0 from bytes 8 and 9. -/
theorem eq_of_sameFlags (h : SameFlags data data')
    (hextension : (fields data).format = .nes2 → SameExtension data data') :
    fields data' = { fields data with format := (fields data').format } := by
  obtain ⟨-, hnibble⟩ := flags7_congr h.flags7
  have hnes2 : ((fields data').format == .nes2) = ((fields data).format == .nes2) := by
    rw [Bool.eq_iff_iff, beq_iff_eq, beq_iff_eq, format_eq_nes2_iff, format_eq_nes2_iff,
      identifier_congr h]
  obtain ⟨hprg, hchr, hflags6, -⟩ := h
  unfold fields at hnes2 hextension ⊢
  unfold byteAt at *
  simp only [hnes2, hnibble, hprg, hchr, hflags6]
  split_ifs with hextended
  · obtain ⟨hmapper, hsizes⟩ := hextension (eq_of_beq hextended)
    unfold byteAt at *
    simp only [hmapper, hsizes]
  · rfl

theorem submapper_eq_zero (h : (fields data).format ≠ .nes2) : (fields data).submapper = 0 :=
  if_neg fun hnes2 => h (eq_of_beq hnes2)

/-- Bytes 10 and 11, all from byte 16 on and the low two bits of byte 7 are published nowhere. -/
theorem sameBits_of_bytes (hbytes : ∀ i < 16, i ∉ [7, 10, 11] → byteAt data i = byteAt data' i)
    (hflags7 : byteAt data 7 &&& 0xFC = byteAt data' 7 &&& 0xFC) : SameBits data data' where
  prg := hbytes 4 (by decide) (by decide)
  chr := hbytes 5 (by decide) (by decide)
  flags6 := hbytes 6 (by decide) (by decide)
  flags7 := hflags7
  extension _ := ⟨hbytes 8 (by decide) (by decide), hbytes 9 (by decide) (by decide)⟩
  tail _ := by
    refine forall_congr' fun i => forall_congr' fun hlow => forall_congr' fun hhigh => ?_
    have hpublished : i ∉ [7, 10, 11] := by simp; omega
    rw [hbytes i hhigh hpublished]

/-- What the format of a dump publishes decides what is read from it. -/
theorem fields_congr (h : SameBits data data') : fields data = fields data' := by
  rw [eq_of_sameFlags h.toSameFlags fun hnes2 => h.extension (format_eq_nes2_iff.1 hnes2),
    ← format_congr h.toSameFlags h.tail]

/-- **Only the published bits of a header matter.** Any two dumps with a header are read, and alike
if they agree on what the format of the first one publishes. So bytes 10 and 11, all from byte 16 on
and the low two bits of byte 7 can be junk. The tail decides on nothing but whether the format is
that of an iNES dump or of one over junk, and outside NES 2.0 no byte from 8 on reaches another
field. -/
theorem only_published_bits_matter (h : HasHeader data) (h' : HasHeader data') :
    ∃ header header', parse data = .ok header ∧ parse data' = .ok header' ∧
      (SameBits data data' → header = header') ∧
      ((∀ i < 16, i ∉ [7, 10, 11] → byteAt data i = byteAt data' i) →
        byteAt data 7 &&& 0xFC = byteAt data' 7 &&& 0xFC → header = header') ∧
      (SameFlags data data' → (header.format = .nes2 → SameExtension data data') →
        header' = { header with format := header'.format } ∧
        (header = header' ↔
          (identifier data = 0x00 → (CleanTail data ↔ CleanTail data'))) ∧
        (header ≠ header' →
          (header.format = .ines ∧ header'.format = .ines07) ∨
          (header.format = .ines07 ∧ header'.format = .ines))) ∧
      (SameFlags data data' → header.format ≠ .nes2 →
        header' = { header with format := header'.format } ∧ header.submapper = 0) := by
  refine ⟨fields data, fields data', parse_eq_ok_iff.2 ⟨h.length, h.magic, rfl⟩,
    parse_eq_ok_iff.2 ⟨h'.length, h'.magic, rfl⟩, fields_congr,
    fun hbytes hflags7 => fields_congr (sameBits_of_bytes hbytes hflags7), ?tail, ?plain⟩
  case tail =>
    intro hflags hextension
    have hother := eq_of_sameFlags hflags hextension
    refine ⟨hother, ⟨fun heq hines => ?_, fun htail => fields_congr ⟨hflags,
      fun hnes2 => hextension (format_eq_nes2_iff.2 hnes2), htail⟩⟩, fun hne => ?_⟩
    · have hines' : identifier data' = 0x00 := identifier_congr hflags ▸ hines
      have hformat : (fields data).format = .ines ↔ (fields data').format = .ines := by rw [heq]
      rw [format_eq_ines_iff, format_eq_ines_iff] at hformat
      simpa only [hines, hines', true_and] using hformat
    · exact (format_eq_or hflags).resolve_left fun hformat => hne (by rw [hother, ← hformat])
  case plain =>
    intro hflags hplain
    exact ⟨eq_of_sameFlags hflags fun hnes2 => absurd hnes2 hplain, submapper_eq_zero hplain⟩

/-- Under the identifier of an archaic dump junk changes nothing, and in an iNES dump it changes the
format alone. -/
theorem only_published_bits_matter_of_junk :
    let dump (flags7 : UInt8) (rest : List UInt8) : List UInt8 :=
      [0x4E, 0x45, 0x53, 0x1A, 2, 1, 0x13, flags7] ++ rest
    let clean : List UInt8 := [0, 0, 0, 0, 0, 0, 0, 0]
    let junk : List UInt8 := [0x44, 0x75, 0x64, 0x65, 0x21, 0, 0xFF, 0, 0xA9]
    let archaic := dump 0x14 clean
    let archaic' := dump 0x17 junk
    let ines := dump 0x10 clean
    let ines' := dump 0x12 junk
    HasHeader archaic ∧ HasHeader archaic' ∧ HasHeader ines ∧ HasHeader ines' ∧
      SameBits archaic archaic' ∧ SameFlags ines ines' ∧
      parse archaic = parse archaic' ∧
      ∃ header, parse ines = .ok header ∧ parse ines' = .ok { header with format := .ines07 } ∧
        header.format = .ines ∧ header.mapper = 17 ∧ header.submapper = 0 := by
  intro dump clean junk archaic archaic' ines ines'
  have harchaic : HasHeader archaic := ⟨by decide, by decide⟩
  have harchaic' : HasHeader archaic' := ⟨by decide, by decide⟩
  have hines : HasHeader ines := ⟨by decide, by decide⟩
  have hines' : HasHeader ines' := ⟨by decide, by decide⟩
  have hbits : SameBits archaic archaic' :=
    ⟨⟨by decide, by decide, by decide, by decide⟩, fun h => absurd h (by decide),
      fun h => absurd h (by decide)⟩
  have hflags : SameFlags ines ines' := ⟨by decide, by decide, by decide, by decide⟩
  refine ⟨harchaic, harchaic', hines, hines', hbits, hflags, ?_, ?_⟩
  · obtain ⟨header, header', hparse, hparse', hsame, -⟩ :=
      only_published_bits_matter harchaic harchaic'
    rw [hparse, hparse', hsame hbits]
  · obtain ⟨header, header', hparse, hparse', -, -, -, hplain⟩ :=
      only_published_bits_matter hines hines'
    have hheader : header = fields ines := (parse_eq_ok_iff.1 hparse).2.2
    have hheader' : header' = fields ines' := (parse_eq_ok_iff.1 hparse').2.2
    have hformat : header.format = .ines := hheader ▸ by decide
    have hformat' : header'.format = .ines07 := hheader' ▸ by decide
    obtain ⟨hother, hsubmapper⟩ := hplain hflags (hformat ▸ by decide)
    rw [hformat'] at hother
    exact ⟨header, hparse, hother ▸ hparse', hformat, hheader ▸ by decide, hsubmapper⟩

end Header

end NesCore
