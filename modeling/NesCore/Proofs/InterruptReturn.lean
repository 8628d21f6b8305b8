import NesCore.Proofs.Recorded
import NesCore.Proofs.StackPage
import NesCore.Proofs.StatusDiscipline

/-!
# Returning from interrupts

An NMI, an IRQ and a software interrupt save PC and P in three bytes; they differ in the address
and in bit 4 of the copy of P. `Framed` is what the three have in common: where SP points, and what
the bytes above it mean to a return. Every entry leaves a frame (`framed_justEntered`), and `RTI`
takes any frame apart (`rti_of_framed`), wherever in page one it lies. What a handler does in
between does not matter, as long as it leaves the frame alone.

Main statement: `rti_undoes_entry`.
-/

namespace NesCore

/-- A way into a handler. -/
inductive Entrance
  | interrupt (kind : Interrupt)
  /-- The software interrupt of `BRK`. -/
  | brk
  deriving DecidableEq, Repr

theorem Status.withoutBreak_of_disciplined {p : Status} (h : p.Disciplined) :
    p.withoutBreak = p := by
  obtain ⟨hunused, hbrk⟩ := h
  rw [withoutBreak, ← hunused, ← hbrk]

/-- The row of `RTI`. -/
def Instruction.rti : Instruction := ⟨0x40, .rti, .implied, 6⟩

namespace Cpu

open NesCore.Action

variable {η : Type} {c d : Cpu} {sp : UInt8} {back : UInt16} {p : Status}

/-! ## Frames -/

/-- SP and the three bytes above it are as an entry leaves them that finds SP as given and saves an
address and a copy of P. Bits 4 and 5 of the copy are lost on the way back. -/
structure Framed (d : Cpu) (sp : UInt8) (back : UInt16) (p : Status) : Prop where
  below : d.sp = sp - 3
  address : d.peekWord (stackAddress (sp - 1)) (stackAddress sp) = back
  status : (Status.ofByte (d.memory.peek (stackAddress (sp - 2)))).withoutBreak = p.withoutBreak

/-- Three pushes make a frame, also where they wrap. -/
theorem framed_pushed (c : Cpu) (back : UInt16) (p : Status) :
    Framed (c.pushed [Word.high back, Word.low back, p.toByte]) c.sp back p := by
  let bytes := [Word.high back, Word.low back, p.toByte]
  have hbyte (i : Nat) (hi : i < 3) :
      (c.pushed bytes).memory.peek (stackAddress (c.sp - UInt8.ofNat i)) = bytes[i] :=
    peek_pushed (by simp [bytes]) hi
  have hhigh := hbyte 0 (by decide)
  have hlow := hbyte 1 (by decide)
  have hstatus := hbyte 2 (by decide)
  refine { below := c.sp_pushed bytes, address := ?_, status := ?_ }
  · have hsp : c.sp - UInt8.ofNat 0 = c.sp := by simp
    rw [hsp] at hhigh
    rw [peekWord, hhigh]
    exact (congrArg (Word.make · _) hlow).trans (Word.make_low_high back)
  · refine (congrArg (fun b => (Status.ofByte b).withoutBreak) hstatus).trans ?_
    exact congrArg Status.withoutBreak (Status.ofByte_toByte p)

/-- A frame is there as long as SP and its bytes are. -/
theorem Framed.congr {e : Cpu} (h : e.Framed sp back p) (hsp : d.sp = e.sp)
    (hbytes : ∀ i < 3, d.memory.peek (stackAddress (sp - UInt8.ofNat i)) =
      e.memory.peek (stackAddress (sp - UInt8.ofNat i))) : d.Framed sp back p := by
  have hhigh : d.memory.peek (stackAddress sp) = e.memory.peek (stackAddress sp) := by
    simpa using hbytes 0 (by decide)
  have hlow := hbytes 1 (by decide)
  have hstatus := hbytes 2 (by decide)
  refine { below := hsp.trans h.below, address := ?_, status := ?_ }
  · rw [← h.address, peekWord, peekWord, hhigh]
    exact congrArg (Word.make · _) hlow
  · rw [← h.status]
    exact congrArg (fun b => (Status.ofByte b).withoutBreak) hstatus

/-- A return takes the frame apart. -/
theorem effect_of_framed (h : d.Framed sp back p) :
    d.effect .returnFromInterrupt .implied =
      { d with pc := back, sp := sp, status := p.withoutBreak } := by
  have hone : d.sp + 1 = sp - 2 := by
    rw [h.below]
    grind
  have htwo : sp - 2 + 1 = sp - 1 := by grind
  have hthree : sp - 1 + 1 = sp := by grind
  have hstatus : d.pulledStatus = { d with sp := sp - 2, status := p.withoutBreak } := by
    rw [pulledStatus, pulled, top, hone, h.status]
    rfl
  have haddress : d.pulledStatus.topWord = back := by
    rw [hstatus, topWord, ← h.address]
    show d.peekWord (stackAddress (sp - 2 + 1)) (stackAddress (sp - 2 + 1 + 1)) = _
    rw [htwo, hthree]
  show { d.pulledStatus.pulled.pulled with pc := d.pulledStatus.topWord } = _
  rw [haddress, hstatus]
  show { d with pc := back, sp := sp - 2 + 1 + 1, status := p.withoutBreak } = _
  rw [htwo, hthree]

/-! ## The return -/

/-- The processor that a return from an interrupt leaves. -/
def returnedTo (d : Cpu) (sp : UInt8) (back : UInt16) (p : Status) : Cpu :=
  { d with pc := back, sp := sp, status := p.withoutBreak, cycles := d.cycles + 6 }

theorem completed_rti (h : c.afterEntry.Framed sp back p) :
    c.completed Instruction.rti = c.afterEntry.returnedTo sp back p := by
  have hready : c.ready.Framed sp back p := ⟨h.below, h.address, h.status⟩
  have heffect : c.ready.effect Instruction.rti.operation Instruction.rti.mode = _ :=
    effect_of_framed hready
  rw [completed_of_jump heffect rfl]
  rfl

/-- A step that finds a frame and executes `RTI`, perhaps after entering an interrupt. -/
theorem rti_of_framed (h : c.state = .running) (hcheck : c.config.stackCheck ≠ .fatal)
    (hopcode : c.afterEntry.memory.read c.fetchAddress = .ok 0x40)
    (hframed : c.afterEntry.Framed sp back p) :
    (step.run c).state = c.afterEntry.returnedTo sp back p ∧
      (step.run c).result = .ok {
        pc := c.fetchAddress
        opcode := 0x40
        cycles := c.afterEntry.cycles + 6 - c.cycles
        halted := false
        interrupt := c.interruptDue } := by
  have hrow : Instruction.rti ∈ Instruction.table := by decide
  have hdemands : c.terms.GrantsAll (c.ready.instructionDemands Instruction.rti) :=
    grantsAll_pullDemands hcheck _ 3
  have hstep := step_of_row h hrow hopcode (grantsAll_entryDemands hcheck c) hdemands
  rw [completed_rti hframed] at hstep
  exact hstep

/-! ## Entries -/

/-- The next step takes the way into a handler. -/
def Enters (c : Cpu) : Entrance → Prop
  | .interrupt kind => c.interruptDue = some kind
  | .brk => c.config.brk = .interrupt ∧ c.serviced.memory.read c.serviced.pc = .ok 0x00

/-- The processor that is interrupted: a `BRK` may be the first instruction of a handler. -/
def interrupted (c : Cpu) : Entrance → Cpu
  | .interrupt _ => c
  | .brk => c.serviced

/-- The processor right after the entry. That of an interrupt is followed by an instruction within
the same step. -/
def justEntered (c : Cpu) : Entrance → Cpu
  | .interrupt _ => c.serviced
  | .brk => (step.run c).state

/-- Where the program goes on after the handler. A `BRK` is followed by a byte that is skipped. -/
def returnAddress (c : Cpu) : Entrance → UInt16
  | .interrupt _ => c.pc
  | .brk => c.serviced.pc + 2

/-- Nothing but a fatal stack check keeps an entry from succeeding. -/
theorem result_serviceInterrupts (hcheck : c.config.stackCheck ≠ .fatal) :
    ((serviceInterrupts c.pc).run c).result = .ok c.interruptDue := by
  obtain ⟨kind, hkind, rfl, -⟩ :=
    (follows_serviceInterrupts c.pc).exists_of_grantsAll (grantsAll_entryDemands hcheck c)
  exact hkind

theorem framed_afterEntry {kind : Interrupt} (h : c.interruptDue = some kind) :
    c.afterEntry.Framed c.sp c.pc c.status := by
  have hregisters := registers_acknowledged c
  have hsp : c.acknowledged.sp = c.sp := congrArg Registers.sp hregisters
  have hpc : c.acknowledged.pc = c.pc := congrArg Registers.pc hregisters
  have hstatus : c.acknowledged.status = c.status := congrArg Registers.status hregisters
  have hframed := framed_pushed c.acknowledged c.acknowledged.pc c.acknowledged.status.withoutBreak
  rw [hsp, hpc, hstatus] at hframed
  have hentered : c.afterEntry = c.acknowledged.entered kind := by
    rw [afterEntry, h]
    rfl
  rw [hentered]
  unfold entered savedByEntry
  rw [hpc, hstatus]
  exact ⟨hframed.below, hframed.address, hframed.status⟩

/-- The row of `BRK`. -/
def brkRow : Instruction := ⟨0x00, .brk, .implied, 7⟩

/-- A software interrupt succeeds and leaves its frame. -/
theorem framed_step_of_brk (h : c.state = .running) (hcheck : c.config.stackCheck ≠ .fatal)
    (hbrk : c.config.brk = .interrupt)
    (hopcode : c.afterEntry.memory.read c.fetchAddress = .ok 0x00) :
    (∃ o, (step.run c).result = .ok o) ∧
      (step.run c).state.Framed c.afterEntry.sp (c.fetchAddress + 2) c.afterEntry.status := by
  have hmode : c.ready.config.brk = .interrupt := by
    rw [show c.ready.config = c.config from (keeps_afterEntry c).2, hbrk]
  have hrow : brkRow ∈ Instruction.table := by decide
  have hdemands : c.terms.GrantsAll (c.ready.instructionDemands brkRow) :=
    grantsAll_stackDemands hcheck c.ready .brk
  obtain ⟨hs, ho⟩ := step_of_row h hrow hopcode (grantsAll_entryDemands hcheck c) hdemands
  have heffect : c.ready.effect brkRow.operation brkRow.mode =
      (c.ready.pushed c.ready.savedBySoftware).withHandler irqVector := by
    show c.ready.effect .brk .implied = _
    rw [effect, hmode]
  have hflow : c.ready.flow brkRow.operation = .jump := by
    show c.ready.flow .brk = _
    rw [flow, hmode]
  have hback : c.ready.pc + 1 = c.fetchAddress + 2 := by
    show c.afterEntry.pc + 1 + 1 = _
    rw [pc_afterEntry, UInt16.add_assoc]
    rfl
  have hframed := framed_pushed c.ready (c.ready.pc + 1) c.ready.status.pushedBySoftware
  rw [hs, completed_of_jump heffect hflow, ← hback]
  exact ⟨⟨_, ho⟩, hframed.below, hframed.address, hframed.status⟩

/-- The three bytes that an entry saves are right above SP, whichever way it was. -/
theorem framed_justEntered {way : Entrance} (h : c.state = .running)
    (hcheck : c.config.stackCheck ≠ .fatal) (hway : c.Enters way) :
    (c.justEntered way).Framed (c.interrupted way).sp (c.returnAddress way)
      (c.interrupted way).status := by
  have hserviced := serviced_of_ok (result_serviceInterrupts hcheck)
  cases way with
  | interrupt kind =>
    show c.serviced.Framed c.sp c.pc c.status
    rw [hserviced]
    exact framed_afterEntry hway
  | brk =>
    obtain ⟨hbrk, hopcode⟩ := hway
    show (step.run c).state.Framed c.serviced.sp (c.serviced.pc + 2) c.serviced.status
    rw [hserviced, pc_afterEntry] at hopcode ⊢
    exact (framed_step_of_brk h hcheck hbrk hopcode).2

/-! ## Handlers -/

theorem stackCheck_step (hcheck : c.config.stackCheck ≠ .fatal) :
    (step.run c).state.config.stackCheck ≠ .fatal := by
  rw [(recorded_step c).2]
  exact hcheck

/-- No call but one that asks for it makes the stack check fatal. -/
theorem stackCheck_perform (hcheck : c.config.stackCheck ≠ .fatal) {calls : List (Call η)}
    (hcalls : ∀ config, .configure config ∈ calls → config.stackCheck ≠ .fatal) :
    (c.perform calls).config.stackCheck ≠ .fatal := by
  have hstep : Keeps (fun s : Cpu => s.config.stackCheck ≠ .fatal) step :=
    fun _ hs => stackCheck_step hs
  induction calls generalizing c with
  | nil => exact hcheck
  | cons a rest ih =>
    refine ih ?_ fun config hr => hcalls config (List.mem_cons_of_mem a hr)
    cases a with
    | reset =>
      show (reset.run c).state.config.stackCheck ≠ .fatal
      rw [(recorded_reset c).2]
      exact hcheck
    | step => exact hstep c hcheck
    | run host start steps =>
      exact keeps_runFor hstep (fun _ _ _ hs => hs) steps ⟨start, c⟩ hcheck
    | triggerNmi | triggerIrq | setRegisters => exact hcheck
    | configure config => exact hcalls config List.mem_cons_self

/-- The handler has left the stack as the entry did and is about to return. -/
structure Returns (c : Cpu) (way : Entrance) (d : Cpu) : Prop where
  running : d.state = .running
  sp : d.sp = (c.justEntered way).sp
  intact : ∀ i < 3, d.memory.peek (stackAddress ((c.interrupted way).sp - UInt8.ofNat i)) =
    (c.justEntered way).memory.peek (stackAddress ((c.interrupted way).sp - UInt8.ofNat i))
  noNmi : d.nmiPending = false
  noIrq : d.irqPending = false
  opcode : d.memory.read d.pc = .ok 0x40

/-- The processor that the return leaves: PC, SP and P of the interrupted one, and the rest as the
handler left it. -/
def resumed (c : Cpu) (way : Entrance) (d : Cpu) : Cpu :=
  d.returnedTo (c.interrupted way).sp (c.returnAddress way) (c.interrupted way).status

/-- **`RTI` undoes every entry.** An entry of any kind succeeds unless the stack check is fatal,
wherever SP is. Whatever the host and the handler do after it, a handler that comes to an `RTI`
with SP and the saved bytes as the entry left them resumes the interrupted program: the `RTI`
succeeds, with PC, SP and P as they were, bit 4 of P cleared and bit 5 set, and with all else as the
handler left it. So does a handler that is nothing but an `RTI`. Where P was not set from outside
since a reset, it is P itself that comes back. -/
theorem rti_undoes_entry {way : Entrance} (h : c.state = .running)
    (hcheck : c.config.stackCheck ≠ .fatal) (hway : c.Enters way) :
    ((serviceInterrupts c.pc).run c).result = .ok c.interruptDue ∧
    (way = .brk → ∃ o, (step.run c).result = .ok o) ∧
    (∀ calls : List (Call η),
      (∀ config, .configure config ∈ calls → config.stackCheck ≠ .fatal) →
      let d := (step.run c).state.perform calls
      c.Returns way d →
        (step.run d).state = c.resumed way d ∧
        (step.run d).result = .ok ⟨d.pc, 0x40, 6, false, none⟩) ∧
    (∀ kind, way = .interrupt kind → c.serviced.memory.read c.serviced.pc = .ok 0x40 →
      (step.run c).state = c.resumed way c.serviced ∧
      (step.run c).result = .ok
        ⟨c.serviced.pc, 0x40, c.serviced.cycles + 6 - c.cycles, false, some kind⟩) ∧
    (∀ (c₀ : Cpu) (earlier : List (Call η)), (∀ r, .setRegisters r ∉ earlier) →
      c = (reset.run c₀).state.perform earlier →
      (c.interrupted way).status.withoutBreak = (c.interrupted way).status) := by
  have hframed := framed_justEntered h hcheck hway
  have hentry := result_serviceInterrupts hcheck
  have hserviced := serviced_of_ok hentry
  refine ⟨hentry, ?brk, ?handler, ?empty, ?reachable⟩
  case brk =>
    rintro rfl
    obtain ⟨hbrk, hopcode⟩ := hway
    rw [hserviced, pc_afterEntry] at hopcode
    exact (framed_step_of_brk h hcheck hbrk hopcode).1
  case handler =>
    intro calls hcalls d hd
    have hfatal : d.config.stackCheck ≠ .fatal := by
      refine stackCheck_perform ?_ hcalls
      rw [(recorded_step c).2]
      exact hcheck
    obtain ⟨hdue, hsame⟩ := afterEntry_of_no_request hd.noNmi hd.noIrq
    have hpc : d.fetchAddress = d.pc := by rw [← pc_afterEntry, hsame]
    have hopcode : d.afterEntry.memory.read d.fetchAddress = .ok 0x40 := by
      rw [hsame, hpc]
      exact hd.opcode
    have hback := hframed.congr hd.sp hd.intact
    rw [← hsame] at hback
    have hstep := rti_of_framed hd.running hfatal hopcode hback
    have hcycles : d.cycles + 6 - d.cycles = 6 := by grind
    rw [hsame, hpc, hdue, hcycles] at hstep
    exact hstep
  case empty =>
    rintro kind rfl hopcode
    have hdue : c.interruptDue = some kind := hway
    have hback : c.serviced.Framed _ _ _ := hframed
    rw [hserviced] at hopcode hback ⊢
    rw [pc_afterEntry] at hopcode
    have hstep := rti_of_framed h hcheck hopcode hback
    rw [hdue, ← pc_afterEntry] at hstep
    exact hstep
  case reachable =>
    rintro c₀ earlier hearlier rfl
    have hdisciplined : Disciplined _ := disciplined_perform (disciplined_reset c₀) hearlier
    refine Status.withoutBreak_of_disciplined ?_
    cases way with
    | interrupt kind => exact hdisciplined
    | brk => exact disciplined_serviceInterrupts _ _ hdisciplined

/-- An NMI with SP at `$01`, so that its bytes lie at both ends of the page, and a handler of `INX`
and `RTI`. -/
theorem rti_undoes_entry_of_wrapping_nmi :
    let memory := ((((Memory.blank .flat).setCell 0xFFFA 0x00).setCell 0xFFFB 0x03).setCell
      0x0300 0xE8).setCell 0x0301 0x40
    let c := { ofMemory memory {} with
      state := .running, nmiPending := true, pc := 0x1234, sp := 0x01, x := 7 }
    let d := (step.run c).state
    (c.state = .running ∧ c.config.stackCheck ≠ .fatal ∧ c.Enters (.interrupt .nmi) ∧
      c.Returns (.interrupt .nmi) d) ∧
    d.x = 8 ∧ (step.run d).state =
      { d with pc := 0x1234, sp := 0x01, status := c.status, cycles := d.cycles + 6 } := by
  intro memory c d
  have h : c.state = .running := rfl
  have hcheck : c.config.stackCheck ≠ .fatal := by decide
  have hway : c.Enters (.interrupt .nmi) := rfl
  have hreturns : c.Returns (.interrupt .nmi) d := by
    refine ⟨?_, ?_, ?_, ?_, ?_, ?_⟩ <;> decide +kernel
  have hx : d.x = 8 := by decide +kernel
  obtain ⟨-, -, hhandler, -⟩ := @rti_undoes_entry Unit c _ h hcheck hway
  have hs : (step.run d).state = c.resumed (.interrupt .nmi) d :=
    (hhandler [] (by simp) hreturns).1
  exact ⟨⟨h, hcheck, hway, hreturns⟩, hx, hs⟩

end Cpu

end NesCore
