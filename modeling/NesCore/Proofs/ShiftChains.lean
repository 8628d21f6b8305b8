import NesCore.Proofs.Lifecycle
import NesCore.Proofs.OperandByte
import NesCore.Proofs.ShiftedNumbers

/-!
# Shifts of numbers in memory

A number of several bytes is shifted byte by byte, and the carry takes one bit from each byte to the
next (`Shifting`). One shift changes one cell and the carry (`step_of_shifts`); by induction a chain
of them passes its bytes and the carry on and leaves the other cells alone (`shifting_pass`), so
that it doubles or halves the number (`leaves_of_leftward`, `leaves_of_rightward`). Code that is not
written to carries a chain out (`Placed.shifting`).

Main statement: `shift_chains_are_exact`.
-/

namespace NesCore

open Alu (Shift)

/-! ## Memory -/

namespace Memory

variable {m n : Memory} {a : UInt16} {cells : List UInt16}

/-- Only the cells of the list differ. -/
structure SameOff (m n : Memory) (cells : List UInt16) : Prop where
  policy : n.policy = m.policy
  romMapped : n.romMapped = m.romMapped
  cell : ∀ a ∉ cells, n.cell a = m.cell a

theorem SameOff.trans {k : Memory} {cells' : List UInt16} (h : m.SameOff n cells)
    (h' : n.SameOff k cells') : m.SameOff k (cells ++ cells') where
  policy := h'.policy.trans h.policy
  romMapped := h'.romMapped.trans h.romMapped
  cell a ha := by
    rw [List.mem_append, not_or] at ha
    exact (h'.cell a ha.2).trans (h.cell a ha.1)

theorem SameOff.mono {cells' : List UInt16} (h : m.SameOff n cells) (hsub : cells ⊆ cells') :
    m.SameOff n cells' :=
  ⟨h.policy, h.romMapped, fun a ha => h.cell a fun hmem => ha (hsub hmem)⟩

theorem SameOff.read_eq (h : m.SameOff n cells) (ha : m.policy.fold a ∉ cells) :
    n.read a = m.read a := by
  rw [Memory.read_eq, Memory.read_eq, h.policy, h.cell _ ha]

theorem SameOff.peek_eq (h : m.SameOff n cells) (ha : m.policy.fold a ∉ cells) :
    n.peek a = m.peek a := by
  rw [peek_eq_read, peek_eq_read, h.read_eq ha]

theorem sameOff_written (m : Memory) (a : UInt16) (v : UInt8) :
    m.SameOff (m.written a v) [m.policy.fold a] where
  policy := policy_written m a v
  romMapped := romMapped_written m a v
  cell b hb := by
    have hne : m.policy.fold a ≠ b := fun hab => hb (hab ▸ List.mem_singleton_self _)
    rw [cell_written, if_neg fun hab => hne hab.2]

/-- The addresses keep what is written to them, each in a cell of its own. -/
structure Stores (m : Memory) (addresses : List UInt16) : Prop where
  takes : ∀ a ∈ addresses, m.Takes a
  nodup : (addresses.map m.policy.fold).Nodup

theorem Stores.reverse {addresses : List UInt16} (h : m.Stores addresses) :
    m.Stores addresses.reverse where
  takes a ha := h.takes a (List.mem_reverse.1 ha)
  nodup := by
    rw [List.map_reverse, List.nodup_reverse]
    exact h.nodup

theorem Stores.of_sameOff {addresses : List UInt16} (h : m.Stores addresses)
    (hsame : m.SameOff n cells) : n.Stores addresses where
  takes a ha := (takes_congr hsame.policy hsame.romMapped a).2 (h.takes a ha)
  nodup := hsame.policy ▸ h.nodup

end Memory

/-! ## Instructions -/

/-- A row of the table that shifts a byte in memory, with the address of that byte. -/
structure ShiftCode where
  ins : Instruction
  kind : Shift
  target : UInt16
  row : ins ∈ Instruction.table
  operation : ins.operation = .shift kind

/-- What the instruction does and where. -/
def ShiftCode.shift (code : ShiftCode) : Shift × UInt16 := (code.kind, code.target)

namespace Cpu

open NesCore.Action

variable {c d s t u : Cpu} {code : ShiftCode} {codes : List ShiftCode}

/-- The next instruction is a shift of the byte at its target. -/
structure Shifts (c : Cpu) (code : ShiftCode) : Prop where
  running : c.state = .running
  noEntry : c.interruptDue = none
  opcode : c.memory.read c.pc = .ok code.ins.opcode
  target : ∃ operand, ((resolve code.ins.mode).run c.ready).result = .ok operand ∧
    operand.address = some code.target

/-- The shifted byte and the outgoing bit take the places of byte and carry. -/
theorem effect_shift {mode : Mode} {a : UInt16} (kind : Shift)
    (h : c.effectiveAddress mode = some a) :
    let v := c.memory.peek a
    let w := kind.value v c.status.carry
    c.effect (.shift kind) mode = { c with
      memory := c.memory.written a w
      status := Status.ofResult { c.status with carry := kind.outgoing v } w } := by
  have hvalue : c.operandValue mode = c.memory.peek a := by rw [operandValue, h]; rfl
  have hput (w : UInt8) : c.withOperand mode w = { c with memory := c.memory.written a w } := by
    rw [withOperand, h]
    rfl
  simp only [effect, hvalue, hput]
  rfl

/-- A shift of a byte in plain storage succeeds. -/
theorem step_of_shifts (h : c.Shifts code) (htakes : c.memory.Takes code.target) :
    let v := c.memory.peek code.target
    let w := code.kind.value v c.status.carry
    (∃ o, (step.run c).result = .ok o) ∧ ∃ cycles, (step.run c).state = { c with
      irqPending := false
      pc := c.pc + 1 + UInt16.ofNat code.ins.mode.operandLength
      memory := c.memory.written code.target w
      status := Status.ofResult { c.status with carry := code.kind.outgoing v } w
      cycles := cycles } := by
  intro v w
  obtain ⟨hrun, hdue, hopcode, operand, hresolve, hplace⟩ := h
  have hentry : c.terms.GrantsAll c.entryDemands := by
    rw [entryDemands, hdue]
    exact .nil
  have hpc : c.fetchAddress = c.pc := by rw [fetchAddress, hdue]; rfl
  have hfetch : c.afterEntry.memory.read c.fetchAddress = .ok code.ins.opcode := by
    rw [afterEntry_of_no_entry hdue, hpc]
    exact hopcode
  have hready := ready_of_no_entry hdue
  have hreads : code.ins.operation.access = .read ∨ code.ins.operation.access = .modify :=
    .inr (congrArg Operation.access code.operation)
  obtain ⟨rfl, -⟩ := (follows_resolve code.ins.mode).of_ok hresolve
  have haddress : c.ready.effectiveAddress code.ins.mode = some code.target := hplace
  have hread : c.ready.terms.GrantsAll (c.ready.dataRead code.ins.mode) := by
    rw [dataRead, haddress, hready]
    exact .cons htakes.2.1 .nil
  obtain ⟨w, hw, -⟩ := (follows_readOperand (c.ready.crossesPage code.ins.mode)
    (mode_ne_implied_of_reads code.row hreads)).exists_of_grantsAll hread
  obtain ⟨-, hdemands⟩ := grantsAll_of_operand code.row hreads hresolve hw
  have hterms : c.ready.terms = c.terms := by rw [hready]; rfl
  rw [hterms] at hdemands
  obtain ⟨hs, ho⟩ := step_of_row hrun code.row hfetch hentry hdemands
  rw [completed_of_next rfl (stackDemands_of_reads hreads c.ready).2, code.operation,
    effect_shift code.kind haddress, hready] at hs
  exact ⟨⟨_, ho⟩, _, hs⟩

theorem running_memory_carry_of_shifts (h : c.Shifts code)
    (htakes : c.memory.Takes code.target) :
    let v := c.memory.peek code.target
    (step.run c).state.state = .running ∧
      (step.run c).state.memory =
        c.memory.written code.target (code.kind.value v c.status.carry) ∧
      (step.run c).state.status.carry = code.kind.outgoing v := by
  obtain ⟨-, cycles, hs⟩ := step_of_shifts h htakes
  rw [hs]
  exact ⟨h.running, rfl, rfl⟩

/-! ## Chains -/

/-- Shifts from `s` to `t`. Whatever happens between two of them leaves memory and carry alone. -/
inductive Shifting : Cpu → List ShiftCode → Cpu → Prop
  | one {s : Cpu} {code : ShiftCode} (h : s.Shifts code) : Shifting s [code] (step.run s).state
  | more {s t u : Cpu} {code : ShiftCode} {codes : List ShiftCode} (h : s.Shifts code)
    (hmemory : u.memory = (step.run s).state.memory)
    (hcarry : u.status.carry = (step.run s).state.status.carry) (rest : Shifting u codes t) :
    Shifting s (code :: codes) t

/-- The run lemma: the bytes and the carry go through the shifts, and no other cell changes. -/
theorem shifting_pass (h : Shifting s codes t)
    (hstores : s.memory.Stores (codes.map ShiftCode.target)) :
    t.state = .running ∧
    Bytes.pass (codes.map fun code => (code.kind, s.memory.peek code.target)) s.status.carry =
      (codes.map fun code => t.memory.peek code.target, t.status.carry) ∧
    s.memory.SameOff t.memory ((codes.map ShiftCode.target).map s.memory.policy.fold) := by
  induction h with
  | @one s code h =>
    have htakes : s.memory.Takes code.target := hstores.takes _ List.mem_cons_self
    obtain ⟨hrunning, hmemory, hcarry⟩ := running_memory_carry_of_shifts h htakes
    refine ⟨hrunning, ?_, hmemory ▸ s.memory.sameOff_written _ _⟩
    simp [Bytes.pass, hmemory, hcarry, Memory.peek_written_self htakes]
  | @more s t u code codes h hmemory hcarry rest ih =>
    have htakes : s.memory.Takes code.target := hstores.takes _ List.mem_cons_self
    obtain ⟨-, hwritten, hout⟩ := running_memory_carry_of_shifts h htakes
    rw [hwritten] at hmemory
    rw [hout] at hcarry
    have hsame : s.memory.SameOff u.memory [s.memory.policy.fold code.target] :=
      hmemory ▸ s.memory.sameOff_written _ _
    obtain ⟨hapart, hnodup⟩ := List.nodup_cons.1 hstores.nodup
    have hrest : s.memory.Stores (codes.map ShiftCode.target) :=
      ⟨fun a ha => hstores.takes a (List.mem_cons_of_mem _ ha), hnodup⟩
    obtain ⟨hrunning, hpass, hoff⟩ := ih (hrest.of_sameOff hsame)
    rw [hsame.policy] at hoff
    refine ⟨hrunning, ?_, hsame.trans hoff⟩
    -- The shift has left the bytes of the others alone, and they leave its byte alone.
    have hfound : codes.map (fun code => (code.kind, u.memory.peek code.target)) =
        codes.map fun code => (code.kind, s.memory.peek code.target) := by
      refine List.map_congr_left fun next hnext => ?_
      rw [hsame.peek_eq fun hmem => hapart ?_]
      rw [← List.mem_singleton.1 hmem]
      exact List.mem_map_of_mem (List.mem_map_of_mem hnext)
    have hleft : t.memory.peek code.target =
        code.kind.value (s.memory.peek code.target) s.status.carry := by
      rw [hoff.peek_eq (hsame.policy ▸ hapart), hmemory, Memory.peek_written_self htakes]
    rw [hfound, hcarry] at hpass
    simp only [List.map_cons, Bytes.pass, hpass, hleft]

/-! ## Numbers in memory -/

/-- The number at the addresses, low byte first. -/
def number (c : Cpu) (addresses : List UInt16) : Nat :=
  Bytes.value (addresses.map c.memory.peek)

variable {first rotation : Shift} {addresses : List UInt16}

theorem number_lt (c : Cpu) (addresses : List UInt16) :
    c.number addresses < 256 ^ addresses.length := by
  have hlt := Bytes.value_lt (addresses.map c.memory.peek)
  rwa [List.length_map] at hlt

theorem shifting_chain (h : Shifting c codes d)
    (hcodes : codes.map ShiftCode.shift = Bytes.chain first rotation addresses)
    (hstores : c.memory.Stores addresses) :
    d.state = .running ∧
    Bytes.pass (Bytes.chain first rotation (addresses.map c.memory.peek)) c.status.carry =
      (addresses.map d.memory.peek, d.status.carry) ∧
    c.memory.SameOff d.memory (addresses.map c.memory.policy.fold) := by
  have htargets : codes.map ShiftCode.target = addresses := by
    rw [← Bytes.map_snd_chain first rotation addresses, ← hcodes, List.map_map]
    rfl
  have hfound : codes.map (fun code => (code.kind, c.memory.peek code.target)) =
      Bytes.chain first rotation (addresses.map c.memory.peek) := by
    rw [← Bytes.map_chain, ← hcodes, List.map_map]
    rfl
  have hleft : codes.map (fun code => d.memory.peek code.target) =
      addresses.map d.memory.peek := by
    rw [← htargets, List.map_map]
    rfl
  obtain ⟨hrunning, hpass, hsame⟩ := shifting_pass h (htargets ▸ hstores)
  rw [hfound, hleft] at hpass
  exact ⟨hrunning, hpass, htargets ▸ hsame⟩

/-- A chain from the low byte on doubles the number. -/
theorem shifting_leftward (h : Shifting c codes d)
    (hcodes : codes.map ShiftCode.shift = Bytes.chain first .rotateLeft addresses)
    (hfirst : first = .left ∨ first = .rotateLeft) (hne : addresses ≠ [])
    (hstores : c.memory.Stores addresses) :
    d.number addresses + 256 ^ addresses.length * d.status.carry.toNat =
      2 * c.number addresses + (first.incoming c.status.carry).toNat := by
  obtain ⟨-, hpass, -⟩ := shifting_chain h hcodes hstores
  have hbytes : addresses.map c.memory.peek ≠ [] := by simpa using hne
  have hvalue := Bytes.pass_leftward hfirst hbytes c.status.carry
  rw [hpass, List.length_map] at hvalue
  exact hvalue

/-- A chain from the high byte on halves the number. -/
theorem shifting_rightward (h : Shifting c codes d)
    (hcodes : codes.map ShiftCode.shift = Bytes.chain first .rotateRight addresses.reverse)
    (hfirst : first = .right ∨ first = .rotateRight) (hne : addresses ≠ [])
    (hstores : c.memory.Stores addresses) :
    2 * d.number addresses + d.status.carry.toNat =
      c.number addresses + 256 ^ addresses.length * (first.incoming c.status.carry).toNat := by
  obtain ⟨-, hpass, -⟩ := shifting_chain h hcodes hstores.reverse
  have hbytes : addresses.reverse.map c.memory.peek ≠ [] := by simpa using hne
  have hvalue := Bytes.pass_rightward hfirst hbytes c.status.carry
  rw [hpass] at hvalue
  simp only [List.map_reverse, List.reverse_reverse, List.length_reverse, List.length_map] at hvalue
  exact hvalue

/-- What shifts of a number leave: the processor runs on, with a number and a carry, and no other
cell has changed. -/
structure Leaves (c d : Cpu) (addresses : List UInt16) (number : Nat) (carry : Bool) : Prop where
  running : d.state = .running
  number : d.number addresses = number
  carry : d.status.carry = carry
  sameOff : c.memory.SameOff d.memory (addresses.map c.memory.policy.fold)

theorem leaves_of_leftward (h : Shifting c codes d)
    (hcodes : codes.map ShiftCode.shift = Bytes.chain first .rotateLeft addresses)
    (hfirst : first = .left ∨ first = .rotateLeft) (hne : addresses ≠ [])
    (hstores : c.memory.Stores addresses) :
    Leaves c d addresses
      ((2 * c.number addresses + (first.incoming c.status.carry).toNat) % 256 ^ addresses.length)
      ((c.number addresses).testBit (8 * addresses.length - 1)) := by
  obtain ⟨hrunning, -, hsame⟩ := shifting_chain h hcodes hstores
  obtain ⟨hnumber, hcarry⟩ := Bytes.eq_of_leftward (List.length_pos_iff.2 hne)
    (c.number_lt addresses) (d.number_lt addresses)
    (shifting_leftward h hcodes hfirst hne hstores)
  exact ⟨hrunning, hnumber, hcarry, hsame⟩

theorem leaves_of_rightward (h : Shifting c codes d)
    (hcodes : codes.map ShiftCode.shift = Bytes.chain first .rotateRight addresses.reverse)
    (hfirst : first = .right ∨ first = .rotateRight) (hne : addresses ≠ [])
    (hstores : c.memory.Stores addresses) :
    Leaves c d addresses
      ((c.number addresses + (first.incoming c.status.carry).toNat * 256 ^ addresses.length) / 2)
      ((c.number addresses).testBit 0) := by
  obtain ⟨hrunning, -, hsame⟩ := shifting_chain h hcodes hstores.reverse
  obtain ⟨hnumber, hcarry⟩ := Bytes.eq_of_rightward (List.length_pos_iff.2 hne)
    (shifting_rightward h hcodes hfirst hne hstores)
  refine ⟨hrunning, hnumber, hcarry, hsame.mono fun a ha => ?_⟩
  rwa [List.map_reverse, List.mem_reverse] at ha

/-! ## There and back -/

/-- Shifts one after the other can be taken apart anywhere. -/
theorem Shifting.split {front back : List ShiftCode} (h : Shifting c (front ++ back) d)
    (hfront : front ≠ []) (hback : back ≠ []) :
    ∃ s t, Shifting c front s ∧ t.memory = s.memory ∧ t.status.carry = s.status.carry ∧
      Shifting t back d := by
  induction front generalizing c with
  | nil => exact absurd rfl hfront
  | cons code rest ih =>
    cases rest with
    | nil =>
      cases h with
      | one => exact absurd rfl hback
      | more hfirst hmemory hcarry hrest =>
        exact ⟨_, _, .one hfirst, hmemory, hcarry, hrest⟩
    | cons next rest =>
      cases h with
      | more hfirst hmemory hcarry hrest =>
        obtain ⟨s, t, hs, hkept, ht⟩ := ih hrest (List.cons_ne_nil _ _)
        exact ⟨s, t, .more hfirst hmemory hcarry hs, hkept, ht⟩

/-- Memories that read alike at addresses of plain storage, and differ in no other cell, are the
same. -/
theorem eq_of_number_eq (hstores : c.memory.Stores addresses)
    (hsame : c.memory.SameOff d.memory (addresses.map c.memory.policy.fold))
    (h : d.number addresses = c.number addresses) : d.memory = c.memory := by
  have hbytes : addresses.map d.memory.peek = addresses.map c.memory.peek :=
    Bytes.value_inj (by simp) h
  refine Memory.ext_cell (fun a => ?_) hsame.policy hsame.romMapped
  by_cases ha : a ∈ addresses.map c.memory.policy.fold
  · obtain ⟨place, hplace, rfl⟩ := List.mem_map.1 ha
    have hpeek : d.memory.peek place = c.memory.peek place :=
      List.map_inj_left.1 hbytes place hplace
    rw [Memory.peek_of_takes ((hstores.of_sameOff hsame).takes place hplace),
      Memory.peek_of_takes (hstores.takes place hplace), hsame.policy] at hpeek
    exact hpeek
  · exact hsame.cell a ha

theorem restored_of_rotations (h : Shifting c codes d)
    (hcodes : codes.map ShiftCode.shift =
      Bytes.chain .rotateLeft .rotateLeft addresses ++
        Bytes.chain .rotateRight .rotateRight addresses.reverse)
    (hne : addresses ≠ []) (hstores : c.memory.Stores addresses) :
    d.state = .running ∧ d.memory = c.memory ∧ d.status.carry = c.status.carry := by
  obtain ⟨front, back, rfl, hfront, hback⟩ := List.map_eq_append_iff.1 hcodes
  have hne' : addresses.reverse ≠ [] := fun h0 => hne (List.reverse_eq_nil_iff.1 h0)
  obtain ⟨s, t, hleft, hmemory, hcarry, hright⟩ := h.split
    (fun h0 => Bytes.chain_ne_nil hne _ _ (by rw [← hfront, h0]; rfl))
    (fun h0 => Bytes.chain_ne_nil hne' _ _ (by rw [← hback, h0]; rfl))
  obtain ⟨-, -, hsame⟩ := shifting_chain hleft hfront hstores
  have hstores' : t.memory.Stores addresses := hmemory ▸ hstores.of_sameOff hsame
  obtain ⟨hrunning, -, -, hsame'⟩ := leaves_of_rightward hright hback (.inr rfl) hne hstores'
  have hdoubled := shifting_leftward hleft hfront (.inr rfl) hne hstores
  have hhalved := shifting_rightward hright hback (.inr rfl) hne hstores'
  have hnumber : t.number addresses = s.number addresses := by rw [number, number, hmemory]
  simp only [hnumber, hcarry, hmemory, Shift.incoming] at hhalved hdoubled hsame'
  -- Both chains together take two times number and carry to themselves.
  have hbit := Bool.toNat_le c.status.carry
  have hbit' := Bool.toNat_le d.status.carry
  have hback : d.number addresses = c.number addresses := by omega
  have hbits : d.status.carry.toNat = c.status.carry.toNat := by omega
  rw [hsame.policy] at hsame'
  have hcells : c.memory.SameOff d.memory (addresses.map c.memory.policy.fold) :=
    (hsame.trans hsame').mono (List.append_subset.2 ⟨List.Subset.refl _, List.Subset.refl _⟩)
  refine ⟨hrunning, eq_of_number_eq hstores hcells hback, ?_⟩
  rw [Bool.eq_iff_iff, ← Bool.toNat_eq_one, ← Bool.toNat_eq_one, hbits]

/-! ## Code -/

/-- The shifts lie one behind the other from `pc` on. -/
def LiesFrom (c : Cpu) (pc : UInt16) : List ShiftCode → Prop
  | [] => True
  | code :: codes =>
    c.memory.read pc = .ok code.ins.opcode ∧
    (∃ operand, ((resolve code.ins.mode).run { c with pc := pc + 1 }).result = .ok operand ∧
      operand.address = some code.target) ∧
    LiesFrom c (pc + 1 + UInt16.ofNat code.ins.mode.operandLength) codes

/-- The addresses of the bytes of the shifts. -/
def codeAddresses (pc : UInt16) : List ShiftCode → List UInt16
  | [] => []
  | code :: codes =>
    pc :: (List.range code.ins.mode.operandLength).map (pc + 1 + UInt16.ofNat ·) ++
      codeAddresses (pc + 1 + UInt16.ofNat code.ins.mode.operandLength) codes

/-- The processor is about to execute the shifts, which do not write to their own code. -/
structure Placed (c : Cpu) (codes : List ShiftCode) : Prop where
  running : c.state = .running
  noEntry : c.interruptDue = none
  lies : c.LiesFrom c.pc codes
  takes : ∀ code ∈ codes, c.memory.Takes code.target
  apart : ∀ code ∈ codes,
    c.memory.policy.fold code.target ∉ (codeAddresses c.pc codes).map c.memory.policy.fold

/-- Shifts work on A or on an address in the bytes behind the opcode, indexed by X at most. -/
theorem mode_of_shift (code : ShiftCode) :
    code.ins.mode ∈ [.accumulator, .zeroPage, .zeroPageX, .absolute, .absoluteX] := by
  have key : ∀ row ∈ Instruction.table, row.mnemonic ∈ Mnemonic.shifts →
      row.mode ∈ [.accumulator, .zeroPage, .zeroPageX, .absolute, .absoluteX] := by
    decide +kernel
  have hshifts (m : Mnemonic) (h : m.operation = .shift code.kind) : m ∈ Mnemonic.shifts := by
    revert h
    cases m <;> simp [Mnemonic.operation, Mnemonic.shifts]
  exact key code.ins code.row (hshifts code.ins.mnemonic code.operation)

/-- The address that such an instruction works on depends on the bytes behind the opcode and on
X. -/
theorem resolve_congr {mode : Mode} {operand : Operand}
    (hmode : mode ∈ [.accumulator, .zeroPage, .zeroPageX, .absolute, .absoluteX])
    (h : ((resolve mode).run c).result = .ok operand) (hpc : d.pc = c.pc) (hx : d.x = c.x)
    (hterms : d.terms = c.terms)
    (hbytes : ∀ i < mode.operandLength,
      d.memory.peek (c.pc + UInt16.ofNat i) = c.memory.peek (c.pc + UInt16.ofNat i)) :
    ((resolve mode).run d).result = .ok operand := by
  obtain ⟨rfl, -⟩ := (follows_resolve mode).of_ok h
  have hgranted := (follows_resolve mode).grantsAll_of_ok h
  have hbyte (hlength : 0 < mode.operandLength) : d.operandByte = c.operandByte := by
    have hfirst := hbytes 0 hlength
    rw [show UInt16.ofNat 0 = 0 from rfl, UInt16.add_zero] at hfirst
    rw [operandByte, operandByte, hpc, hfirst]
  have hword (hlength : 1 < mode.operandLength) : d.operandWord = c.operandWord := by
    have hlow : d.memory.peek d.pc = c.memory.peek c.pc := hbyte (Nat.lt_of_succ_lt hlength)
    have hhigh := hbytes 1 hlength
    rw [operandWord, operandWord, peekWord, peekWord, hlow, hpc]
    exact congrArg (Word.make _) hhigh
  have hsame : d.resolveDemands mode = c.resolveDemands mode ∧ d.operand mode = c.operand mode := by
    simp only [List.mem_cons, List.not_mem_nil, or_false] at hmode
    rcases hmode with rfl | rfl | rfl | rfl | rfl <;>
      simp_all [resolveDemands, operandReads, pointerReads, pointer?, Cpu.operand,
        effectiveAddress, crossesPage, Mode.operandLength]
  rw [← hsame.1, ← hterms] at hgranted
  obtain ⟨operand, hok, rfl, -⟩ := (follows_resolve mode).exists_of_grantsAll hgranted
  rw [hok, hsame.2]

/-- Code stays as it is where nothing is written to it. -/
theorem LiesFrom.congr {pc : UInt16} {cells : List UInt16} (h : c.LiesFrom pc codes)
    (hx : d.x = c.x) (hconfig : d.config = c.config) (hsame : c.memory.SameOff d.memory cells)
    (hapart : ∀ b ∈ codeAddresses pc codes, c.memory.policy.fold b ∉ cells) :
    d.LiesFrom pc codes := by
  induction codes generalizing pc with
  | nil => trivial
  | cons code codes ih =>
    obtain ⟨hopcode, ⟨operand, hresolve, htarget⟩, hrest⟩ := h
    have hterms : d.terms = c.terms := by rw [terms, terms, hsame.policy, hconfig]
    refine ⟨?_, ⟨operand, ?_, htarget⟩, ih hrest fun b hb => ?_⟩
    · rw [hsame.read_eq (hapart pc List.mem_cons_self), hopcode]
    · refine resolve_congr (mode_of_shift code) hresolve rfl hx hterms fun i hi => ?_
      refine hsame.peek_eq (hapart _ ?_)
      exact List.mem_append_left _ (List.mem_cons_of_mem _
        (List.mem_map_of_mem (List.mem_range.2 hi)))
    · exact hapart b (List.mem_append_right _ hb)

theorem Placed.shifts (h : c.Placed (code :: codes)) : c.Shifts code := by
  obtain ⟨hopcode, ⟨operand, hresolve, htarget⟩, -⟩ := h.lies
  refine ⟨h.running, h.noEntry, hopcode, operand, ?_, htarget⟩
  rw [ready_of_no_entry h.noEntry]
  exact resolve_congr (mode_of_shift code) hresolve rfl rfl rfl fun _ _ => rfl

/-- After the first shift the processor is about to execute the others. -/
theorem Placed.step (h : c.Placed (code :: codes)) : (step.run c).state.Placed codes := by
  have htakes : c.memory.Takes code.target := h.takes code List.mem_cons_self
  obtain ⟨-, cycles, hs⟩ := step_of_shifts h.shifts htakes
  have hsame := c.memory.sameOff_written code.target
    (code.kind.value (c.memory.peek code.target) c.status.carry)
  rw [hs]
  refine ⟨h.running, ?entry, h.lies.2.2.congr rfl rfl hsame ?unwritten, fun next hnext => ?takes,
    fun next hnext hmem => ?apart⟩
  case entry => simp [interruptDue, nmiPending_of_no_entry h.noEntry]
  case unwritten =>
    intro b hb hcell
    have hcode : b ∈ codeAddresses c.pc (code :: codes) := List.mem_append_right _ hb
    exact h.apart code List.mem_cons_self
      (List.mem_map.2 ⟨b, hcode, List.mem_singleton.1 hcell⟩)
  case takes =>
    exact (Memory.takes_congr hsame.policy hsame.romMapped _).2
      (h.takes next (List.mem_cons_of_mem _ hnext))
  case apart =>
    have hpolicy : (c.memory.written code.target _).policy = c.memory.policy := hsame.policy
    rw [hpolicy] at hmem
    exact h.apart next (List.mem_cons_of_mem _ hnext)
      (List.map_subset _ (List.subset_append_right _ _) hmem)

/-- Steps through the code are shifts one after the other. -/
theorem Placed.shifting (h : c.Placed codes) (hne : codes ≠ []) :
    Shifting c codes (c.perform (List.replicate codes.length (.step : Call Unit))) := by
  induction codes generalizing c with
  | nil => exact absurd rfl hne
  | cons code codes ih =>
    cases codes with
    | nil => exact .one h.shifts
    | cons next codes => exact .more h.shifts rfl rfl (ih h.step (List.cons_ne_nil _ _))

/-! ## Main statement -/

open Bytes in
/-- **Chains of shifts are shifts of numbers.** For a number of any length in plain storage and any
carry: `ROL` from the low byte on doubles it and brings the carry in, `ROR` from the high byte on
halves it with the carry on top, and the bit that falls out is left in the carry. With `ASL` or
`LSR` at first no bit comes in. Both chains in a row leave memory and carry as they were. Code that
does not write to itself carries such a chain out, step by step. -/
theorem shift_chains_are_exact (hne : addresses ≠ []) (hstores : c.memory.Stores addresses) :
    let n := addresses.length
    let B := c.number addresses
    let carry := c.status.carry.toNat
    (∀ codes d, Shifting c codes d →
      (codes.map ShiftCode.shift = chain .rotateLeft .rotateLeft addresses →
        Leaves c d addresses ((2 * B + carry) % 256 ^ n) (B.testBit (8 * n - 1))) ∧
      (codes.map ShiftCode.shift = chain .left .rotateLeft addresses →
        Leaves c d addresses (2 * B % 256 ^ n) (B.testBit (8 * n - 1))) ∧
      (codes.map ShiftCode.shift = chain .rotateRight .rotateRight addresses.reverse →
        Leaves c d addresses ((B + carry * 256 ^ n) / 2) (B.testBit 0)) ∧
      (codes.map ShiftCode.shift = chain .right .rotateRight addresses.reverse →
        Leaves c d addresses (B / 2) (B.testBit 0)) ∧
      (codes.map ShiftCode.shift =
          chain .rotateLeft .rotateLeft addresses ++
            chain .rotateRight .rotateRight addresses.reverse →
        d.state = .running ∧ d.memory = c.memory ∧ d.status.carry = c.status.carry)) ∧
    (∀ codes, codes ≠ [] → c.Placed codes →
      Shifting c codes (c.perform (List.replicate codes.length (.step : Call Unit)))) := by
  intro n B carry
  refine ⟨fun codes d h => ⟨fun hcodes => ?rol, fun hcodes => ?asl, fun hcodes => ?ror,
    fun hcodes => ?lsr, fun hcodes => ?both⟩, fun codes hcodes hplaced => hplaced.shifting hcodes⟩
  case rol => exact leaves_of_leftward h hcodes (.inr rfl) hne hstores
  case asl => exact leaves_of_leftward h hcodes (.inl rfl) hne hstores
  case ror => exact leaves_of_rightward h hcodes (.inr rfl) hne hstores
  case lsr =>
    have hleaves := leaves_of_rightward h hcodes (.inl rfl) hne hstores
    rwa [show Shift.right.incoming c.status.carry = false from rfl, Bool.toNat_false,
      Nat.zero_mul, Nat.add_zero] at hleaves
  case both => exact restored_of_rotations h hcodes hne hstores

/-- `$C381` in page zero and, found by X, in page three: `ROL` twice, and `ROR` twice. -/
theorem shift_chains_are_exact_of_two_bytes :
    let program : List UInt8 := [0x26, 0x10, 0x3E, 0x00, 0x03, 0x7E, 0x00, 0x03, 0x66, 0x10]
    let memory := (((Memory.blank .fault).load 0x0400 program).load 0x0010 [0x81]).load 0x0302
      [0xC3]
    let c := { ofMemory memory {} with
      state := .running, pc := 0x0400, x := 2, status := Status.ofByte 0x01 }
    let addresses : List UInt16 := [0x0010, 0x0302]
    let rotations : List ShiftCode := [
      ⟨⟨0x26, .rol, .zeroPage, 5⟩, .rotateLeft, 0x0010, by decide, rfl⟩,
      ⟨⟨0x3E, .rol, .absoluteX, 7⟩, .rotateLeft, 0x0302, by decide, rfl⟩]
    let back : List ShiftCode := [
      ⟨⟨0x7E, .ror, .absoluteX, 7⟩, .rotateRight, 0x0302, by decide, rfl⟩,
      ⟨⟨0x66, .ror, .zeroPage, 5⟩, .rotateRight, 0x0010, by decide, rfl⟩]
    let steps (n : Nat) : Cpu := c.perform (List.replicate n (.step : Call Unit))
    addresses ≠ [] ∧ c.memory.Stores addresses ∧ c.Placed (rotations ++ back) ∧
      Leaves c (steps 2) addresses 0x8703 true ∧
      (steps 4).state = .running ∧ (steps 4).memory = c.memory ∧
      (steps 4).status.carry = true := by
  intro program memory c addresses rotations back steps
  have hstores : c.memory.Stores addresses :=
    ⟨List.forall_mem_cons.2 ⟨by decide +kernel, List.forall_mem_singleton.2 (by decide +kernel)⟩,
      by decide +kernel⟩
  have hlies : c.LiesFrom c.pc (rotations ++ back) := by
    refine ⟨by decide +kernel, ⟨⟨.zeroPage, some 0x0010, false⟩, by decide +kernel, rfl⟩,
      by decide +kernel, ⟨⟨.absoluteX, some 0x0302, false⟩, by decide +kernel, rfl⟩,
      by decide +kernel, ⟨⟨.absoluteX, some 0x0302, false⟩, by decide +kernel, rfl⟩,
      by decide +kernel, ⟨⟨.zeroPage, some 0x0010, false⟩, by decide +kernel, rfl⟩, trivial⟩
  have hplaced : c.Placed (rotations ++ back) :=
    ⟨rfl, by decide +kernel, hlies, by decide +kernel, by decide +kernel⟩
  have hfirst : c.Placed rotations :=
    ⟨rfl, by decide +kernel, ⟨hlies.1, hlies.2.1, hlies.2.2.1, hlies.2.2.2.1, trivial⟩,
      by decide +kernel, by decide +kernel⟩
  have hne : addresses ≠ [] := List.cons_ne_nil _ _
  obtain ⟨hchains, hcode⟩ := shift_chains_are_exact hne hstores
  obtain ⟨hrotated, -⟩ := hchains rotations _ (hcode rotations (List.cons_ne_nil _ _) hfirst)
  obtain ⟨-, -, -, -, hrestored⟩ :=
    hchains (rotations ++ back) _ (hcode _ (List.cons_ne_nil _ _) hplaced)
  have hdoubled : (2 * c.number addresses + c.status.carry.toNat) % 256 ^ addresses.length =
      0x8703 := by
    decide +kernel
  have htop : (c.number addresses).testBit (8 * addresses.length - 1) = true := by decide +kernel
  have hleaves := hrotated rfl
  rw [hdoubled, htop] at hleaves
  obtain ⟨hrunning, hmemory, hcarry⟩ := hrestored rfl
  exact ⟨hne, hstores, hplaced, hleaves, hrunning, hmemory, hcarry⟩

end Cpu

end NesCore
