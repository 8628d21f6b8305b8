import NesCore.Proofs.InterruptReturn

/-!
# Subroutines

`JSR` saves the address of its last byte, high byte first, and `RTS` goes on behind the address that
it finds (`step_of_jsr`, `step_of_rts`). The words above SP are a stack of return addresses
(`Holds`): a `JSR` puts one on it, as long as the page has room for it (`holds_step_of_jsr`), and an
`RTS` takes the last one off (`step_of_rts_of_holds`). So calls that are nested return in reverse
order, by induction on the way down (`holds_of_descent`) and on the way up (`pc_of_ascent`).

Main statement: `subroutine_linkage`.
-/

namespace NesCore

/-- The row of `JSR`. -/
def Instruction.jsr : Instruction := ⟨0x20, .jsr, .absolute, 6⟩

/-- The row of `RTS`. -/
def Instruction.rts : Instruction := ⟨0x60, .rts, .implied, 6⟩

namespace Cpu

open NesCore.Action

variable {η : Type} {c d : Cpu} {sp low high : UInt8} {w : UInt16} {ws ps qs : List UInt16}

/-! ## Rows that jump -/

/-- A jump without a page penalty takes the cycles of its row. -/
theorem Executes.step_of_jump {ins : Instruction} (h : c.Executes ins)
    (hins : ins ∈ Instruction.table) (hpenalty : ins.pagePenalty = false)
    (hdemands : c.terms.GrantsAll (c.afterOpcode.instructionDemands ins))
    (hflow : c.afterOpcode.flow ins.operation = .jump) {s : Cpu}
    (heffect : c.afterOpcode.effect ins.operation ins.mode = s) (hs : s.cycles = c.cycles) :
    (step.run c).result = .ok ⟨c.pc, ins.opcode, UInt64.ofNat ins.cycles, false, none⟩ ∧
      (step.run c).state = { s with cycles := c.cycles + UInt64.ofNat ins.cycles } := by
  have hready := h.ready_eq
  rw [← hready] at heffect hflow
  have hcycles : instructionCycles ins (c.ready.operand ins.mode) = UInt64.ofNat ins.cycles := by
    rw [instructionCycles, hpenalty]
    exact UInt64.add_zero _
  have hcompleted := completed_of_jump heffect hflow
  rw [hcycles, hs] at hcompleted
  have htaken : (c.completed ins).cycles - c.cycles = UInt64.ofNat ins.cycles := by
    rw [hcompleted]
    show c.cycles + UInt64.ofNat ins.cycles - c.cycles = UInt64.ofNat ins.cycles
    grind
  obtain ⟨hstate, ho⟩ := h.step_eq hins hdemands
  rw [htaken, ← hready, hflow] at ho
  rw [hstate, hcompleted]
  exact ⟨ho, rfl⟩

/-! ## Calls -/

/-- The next instruction is a `JSR` whose operand can be read. -/
structure AtCall (c : Cpu) (low high : UInt8) : Prop extends c.Executes .jsr where
  low : c.memory.read (c.pc + 1) = .ok low
  high : c.memory.read (c.pc + 2) = .ok high

/-- Pushes do not depend on PC. -/
theorem pushed_withPc (c : Cpu) (pc : UInt16) (bytes : List UInt8) :
    { c with pc := pc }.pushed bytes = { c.pushed bytes with pc := pc } := by
  induction bytes generalizing c with
  | nil => rfl
  | cons v rest ih =>
    exact ih { c with memory := c.memory.written (stackAddress c.sp) v, sp := c.sp - 1 }

/-- A `JSR` goes where its operand says, which it has read before it pushes anything. -/
theorem step_of_jsr (h : c.AtCall low high) (hcheck : c.config.stackCheck ≠ .fatal) :
    (step.run c).result = .ok ⟨c.pc, 0x20, 6, false, none⟩ ∧
      (step.run c).state = { c.pushed [Word.high (c.pc + 2), Word.low (c.pc + 2)] with
        pc := Word.make low high, cycles := c.cycles + 6 } := by
  have hnext : c.pc + 1 + 1 = c.pc + 2 := Word.add_one_add_one c.pc
  obtain ⟨hlow, hlowPeek⟩ := Memory.not_refuses_of_read_eq_ok h.low
  obtain ⟨hhigh, hhighPeek⟩ := Memory.not_refuses_of_read_eq_ok h.high
  have hrow : Instruction.jsr ∈ Instruction.table := by decide
  have hdemands : c.terms.GrantsAll (c.afterOpcode.instructionDemands .jsr) := by
    have hoperand : c.terms.GrantsAll (c.afterOpcode.resolveDemands .absolute) := by
      rw [resolveDemands_of_word c.afterOpcode rfl (by decide)]
      refine .append (.cons hlow (.cons ?_ .nil)) .nil
      show ¬ c.memory.policy.Refuses (c.pc + 1 + 1)
      rwa [hnext]
    rw [instructionDemands_eq c.afterOpcode hrow]
    exact hoperand.append (.append .nil (grantsAll_stackDemands hcheck c.afterOpcode .call))
  have hword : c.afterOpcode.operandWord = Word.make low high := by
    show Word.make (c.memory.peek (c.pc + 1)) (c.memory.peek (c.pc + 1 + 1)) = _
    rw [hnext, hlowPeek, hhighPeek]
  have heffect : c.afterOpcode.effect Instruction.jsr.operation Instruction.jsr.mode =
      { c.pushed [Word.high (c.pc + 2), Word.low (c.pc + 2)] with pc := Word.make low high } := by
    rw [← hnext, ← hword]
    exact congrArg (fun s : Cpu => { s with pc := c.afterOpcode.operandWord })
      (pushed_withPc c (c.pc + 1) _)
  exact h.step_of_jump hrow rfl hdemands rfl heffect (by rw [pushed_eq])

/-! ## Returns -/

theorem sp_add_two (c : Cpu) : c.sp + 1 + 1 = c.sp + 2 := by
  rw [UInt8.add_assoc]
  rfl

/-- An `RTS` goes on behind the word above SP. -/
theorem step_of_rts (h : c.Executes .rts) (hcheck : c.config.stackCheck ≠ .fatal) :
    (step.run c).result = .ok ⟨c.pc, 0x60, 6, false, none⟩ ∧
      (step.run c).state =
        { c with pc := c.topWord + 1, sp := c.sp + 2, cycles := c.cycles + 6 } := by
  have hrow : Instruction.rts ∈ Instruction.table := by decide
  have hdemands : c.terms.GrantsAll (c.afterOpcode.instructionDemands .rts) :=
    grantsAll_pullDemands hcheck _ 2
  have heffect : c.afterOpcode.effect Instruction.rts.operation Instruction.rts.mode =
      { c with pc := c.topWord + 1, sp := c.sp + 2 } := by
    rw [← c.sp_add_two]
    rfl
  exact h.step_of_jump hrow rfl hdemands rfl heffect rfl

/-! ## The stack of return addresses -/

/-- The words lie on the stack, one above the other, from SP on. -/
def Holds (c : Cpu) : UInt8 → List UInt16 → Prop
  | _, [] => True
  | sp, w :: ws => c.peekWord (stackAddress (sp + 1)) (stackAddress (sp + 2)) = w ∧
    c.Holds (sp + 2) ws

/-- Words stay on the stack as long as their bytes do. -/
theorem Holds.congr (h : c.Holds sp ws) (hsame : ∀ i, 0 < i → i ≤ 2 * ws.length →
    d.memory.peek (stackAddress (sp + UInt8.ofNat i)) =
      c.memory.peek (stackAddress (sp + UInt8.ofNat i))) : d.Holds sp ws := by
  induction ws generalizing sp with
  | nil => trivial
  | cons w ws ih =>
    obtain ⟨hword, hrest⟩ := h
    rw [List.length_cons] at hsame
    refine ⟨?_, ih hrest fun i hi hle => ?_⟩
    · have hlow := hsame 1 (by omega) (by omega)
      have hhigh := hsame 2 (by omega) (by omega)
      rw [← hword, peekWord, peekWord]
      exact congrArg₂ Word.make hlow hhigh
    · have hplace : sp + 2 + UInt8.ofNat i = sp + UInt8.ofNat (i + 2) := by
        simp only [UInt8.ofNat_add]
        grind
      rw [hplace]
      exact hsame (i + 2) (by omega) (by omega)

/-- Two pushes put a word on the stack. The words above stay, as long as the page has room. -/
theorem holds_pushed (h : c.Holds c.sp ws) (hroom : ws.length < 128) (w : UInt16) :
    (c.pushed [Word.high w, Word.low w]).Holds (c.sp - 2) (w :: ws) := by
  let bytes := [Word.high w, Word.low w]
  have hbyte (i : Nat) (hi : i < 2) :
      (c.pushed bytes).memory.peek (stackAddress (c.sp - UInt8.ofNat i)) = bytes[i] :=
    peek_pushed (by simp [bytes]) hi
  have hone : c.sp - 2 + 1 = c.sp - UInt8.ofNat 1 := by
    show c.sp - 2 + 1 = c.sp - 1
    grind
  have htwo : c.sp - 2 + 2 = c.sp := by grind
  have htop : c.sp - UInt8.ofNat 0 = c.sp := UInt8.sub_zero c.sp
  refine ⟨?_, ?_⟩
  · have hlow := hbyte 1 (by decide)
    have hhigh := hbyte 0 (by decide)
    rw [htop] at hhigh
    rw [peekWord, hone, htwo]
    exact (congrArg₂ Word.make hlow hhigh).trans (Word.make_low_high w)
  · rw [htwo]
    refine h.congr fun i hi hle => peek_pushed_of_ne fun j hj heq => ?_
    -- The words that are there already end before SP comes round to the two places.
    have hnat := congrArg UInt8.toNat heq
    have hj : j < 2 := hj
    rw [UInt8.toNat_sub, UInt8.toNat_add, UInt8.toNat_ofNat', UInt8.toNat_ofNat'] at hnat
    have hsp := c.sp.toNat_lt
    omega

/-- An `RTS` that finds a return address on the stack goes on behind it and takes it off. -/
theorem step_of_rts_of_holds (h : c.Executes .rts) (hcheck : c.config.stackCheck ≠ .fatal)
    (hws : c.Holds c.sp (w :: ws)) :
    (step.run c).state = { c with pc := w + 1, sp := c.sp + 2, cycles := c.cycles + 6 } ∧
      (step.run c).state.Holds (step.run c).state.sp ws := by
  obtain ⟨hword, hrest⟩ := hws
  have htop : c.topWord = w := by rw [← hword, topWord, c.sp_add_two]
  obtain ⟨-, hs⟩ := step_of_rts h hcheck
  rw [htop] at hs
  rw [hs]
  exact ⟨rfl, hrest.congr fun _ _ _ => rfl⟩

/-- A `JSR` puts its return address on the stack, which is that of its last byte. -/
theorem holds_step_of_jsr (h : c.AtCall low high) (hcheck : c.config.stackCheck ≠ .fatal)
    (hws : c.Holds c.sp ws) (hroom : ws.length < 128) :
    (step.run c).state.sp = c.sp - 2 ∧
      (step.run c).state.Holds (step.run c).state.sp ((c.pc + 2) :: ws) := by
  obtain ⟨-, hs⟩ := step_of_jsr h hcheck
  have hsp : (c.pushed [Word.high (c.pc + 2), Word.low (c.pc + 2)]).sp = c.sp - 2 :=
    c.sp_pushed _
  rw [hs]
  refine ⟨hsp, ?_⟩
  show Holds _ (c.pushed _).sp _
  rw [hsp]
  exact (holds_pushed hws hroom (c.pc + 2)).congr fun _ _ _ => rfl

/-! ## Nested calls -/

/-- The host leads from one processor to the other, and SP and the stack page are the same
again. -/
structure LeavesStack (η : Type) (c d : Cpu) : Prop where
  reached : ∃ calls : List (Call η), d = c.perform calls ∧
    ∀ config, .configure config ∈ calls → config.stackCheck ≠ .fatal
  sp : d.sp = c.sp
  stack : ∀ sp, d.memory.peek (stackAddress sp) = c.memory.peek (stackAddress sp)

/-- Bodies and between them `JSR`s at the given addresses, the outermost first. -/
inductive Descent (η : Type) : Cpu → List UInt16 → Cpu → Prop
  | body {c d : Cpu} (h : LeavesStack η c d) : Descent η c [] d
  | call {c s d : Cpu} {low high : UInt8} {ps : List UInt16} (h : LeavesStack η c s)
    (hcall : s.AtCall low high) (rest : Descent η (step.run s).state ps d) :
    Descent η c (s.pc :: ps) d

/-- Bodies and between them `RTS`s. The addresses are those to which these lead. -/
inductive Ascent (η : Type) : Cpu → List UInt16 → Cpu → Prop
  | body {c d : Cpu} (h : LeavesStack η c d) : Ascent η c [] d
  | back {c s d : Cpu} {qs : List UInt16} (h : LeavesStack η c s) (hback : s.Executes .rts)
    (rest : Ascent η (step.run s).state qs d) : Ascent η c ((step.run s).state.pc :: qs) d

theorem LeavesStack.holds (h : LeavesStack η c d) (hws : c.Holds c.sp ws) : d.Holds d.sp ws := by
  rw [h.sp]
  exact hws.congr fun i _ _ => h.stack _

theorem LeavesStack.stackCheck (h : LeavesStack η c d) (hcheck : c.config.stackCheck ≠ .fatal) :
    d.config.stackCheck ≠ .fatal := by
  obtain ⟨calls, rfl, hcalls⟩ := h.reached
  exact stackCheck_perform hcheck hcalls

/-- On the way down every `JSR` puts its return address on the stack. -/
theorem holds_of_descent (h : Descent η c ps d) (hcheck : c.config.stackCheck ≠ .fatal)
    (hws : c.Holds c.sp ws) (hroom : ps.length + ws.length ≤ 128) :
    d.config.stackCheck ≠ .fatal ∧ d.sp = c.sp - UInt8.ofNat (2 * ps.length) ∧
      d.Holds d.sp ((ps.map (· + 2)).reverse ++ ws) := by
  induction h generalizing ws with
  | body h => exact ⟨h.stackCheck hcheck, by rw [h.sp]; exact (UInt8.sub_zero _).symm, h.holds hws⟩
  | @call c s d low high ps h hcall rest ih =>
    rw [List.length_cons] at hroom
    have hcheck' := h.stackCheck hcheck
    obtain ⟨hsp, hheld⟩ := holds_step_of_jsr hcall hcheck' (h.holds hws) (by omega)
    obtain ⟨hlast, hspLast, hall⟩ := ih (stackCheck_step hcheck') hheld
      (by rw [List.length_cons]; omega)
    refine ⟨hlast, ?_, ?_⟩
    · rw [hspLast, hsp, h.sp, List.length_cons, Nat.mul_add]
      simp only [UInt8.ofNat_add]
      grind
    · simpa using hall

/-- On the way up every `RTS` goes on behind the last return address that is left. -/
theorem pc_of_ascent (h : Ascent η c qs d) (hcheck : c.config.stackCheck ≠ .fatal)
    (hws : c.Holds c.sp ws) (hlength : qs.length ≤ ws.length) :
    qs = (ws.take qs.length).map (· + 1) ∧ d.sp = c.sp + UInt8.ofNat (2 * qs.length) := by
  induction h generalizing ws with
  | body h => exact ⟨rfl, by rw [h.sp]; exact (UInt8.add_zero _).symm⟩
  | @back c s d qs h hback rest ih =>
    have hcheck' := h.stackCheck hcheck
    cases ws with
    | nil => simp at hlength
    | cons w ws =>
      rw [List.length_cons, List.length_cons] at hlength
      obtain ⟨hs, hheld⟩ := step_of_rts_of_holds hback hcheck' (h.holds hws)
      obtain ⟨hqs, hsp⟩ := ih (stackCheck_step hcheck') hheld (by omega)
      refine ⟨?_, ?_⟩
      · rw [List.length_cons, List.take_succ_cons, List.map_cons, ← hqs, hs]
      · rw [hsp, hs]
        show s.sp + 2 + _ = _
        rw [h.sp, List.length_cons, Nat.mul_add]
        simp only [UInt8.ofNat_add]
        grind

/-- **Subroutine linkage.** A `JSR` goes to the address that its operand gave before the pushes,
wherever PC and SP are. Whatever the host and the subroutine do after it, an `RTS` that finds SP and
the two saved bytes as the `JSR` left them goes on behind the `JSR`, with SP as it was before and
all else as the subroutine left it. Up to 128 nested calls, whose bodies leave SP and the stack page
alone, return in reverse order, each behind its own `JSR`. -/
theorem subroutine_linkage (hcheck : c.config.stackCheck ≠ .fatal) :
    (∀ low high, c.AtCall low high →
      let s := (step.run c).state
      (step.run c).result = .ok ⟨c.pc, 0x20, 6, false, none⟩ ∧ s.pc = Word.make low high ∧
      ∀ calls : List (Call η),
        (∀ config, .configure config ∈ calls → config.stackCheck ≠ .fatal) →
        let d := s.perform calls
        d.sp = s.sp →
        (∀ i < 2, d.memory.peek (stackAddress (c.sp - UInt8.ofNat i)) =
          s.memory.peek (stackAddress (c.sp - UInt8.ofNat i))) →
        d.Executes .rts →
        (step.run d).result = .ok ⟨d.pc, 0x60, 6, false, none⟩ ∧
        (step.run d).state = { d with pc := c.pc + 3, sp := c.sp, cycles := d.cycles + 6 }) ∧
    ∀ ps qs d e, Descent η c ps d → Ascent η d qs e → ps.length ≤ 128 → qs.length = ps.length →
      qs = (ps.map (· + 3)).reverse ∧ e.sp = c.sp := by
  refine ⟨fun low high h => ?single, fun ps qs d e hdown hup hdepth hlength => ?nested⟩
  case single =>
    intro s
    obtain ⟨ho, hs⟩ := step_of_jsr h hcheck
    have hpc : s.pc = Word.make low high := by
      show (step.run c).state.pc = _
      rw [hs]
    refine ⟨ho, hpc, ?_⟩
    intro calls hcalls d hsp hintact hback
    have hfatal : d.config.stackCheck ≠ .fatal :=
      stackCheck_perform (stackCheck_step hcheck) hcalls
    obtain ⟨hbelow, hheld⟩ := @holds_step_of_jsr c low high [] h hcheck trivial (by decide)
    have hkept : d.Holds d.sp [c.pc + 2] := by
      rw [hsp]
      refine Holds.congr hheld fun i hi hle => ?_
      have hle : i ≤ 2 := hle
      have hplace : s.sp + UInt8.ofNat i = c.sp - UInt8.ofNat (2 - i) := by
        have hsum : UInt8.ofNat i + UInt8.ofNat (2 - i) = 2 := by
          rw [← UInt8.ofNat_add, Nat.add_sub_of_le hle]
          rfl
        show (step.run c).state.sp + _ = _
        grind
      rw [hplace]
      exact hintact (2 - i) (by omega)
    obtain ⟨hd, -⟩ := step_of_rts_of_holds hback hfatal hkept
    refine ⟨(step_of_rts hback hfatal).1, ?_⟩
    have hnext : c.pc + 2 + 1 = c.pc + 3 := by rw [UInt16.add_assoc]; rfl
    have htop : d.sp + 2 = c.sp := by
      rw [hsp, hbelow]
      grind
    rw [hd, hnext, htop]
  case nested =>
    obtain ⟨hfatal, hsp, hheld⟩ := @holds_of_descent η c d [] ps hdown hcheck trivial hdepth
    rw [List.append_nil] at hheld
    obtain ⟨hqs, hsp'⟩ := pc_of_ascent hup hfatal hheld (by simp [hlength])
    refine ⟨?_, ?_⟩
    · have hall : (ps.map (· + 2)).reverse.take qs.length = (ps.map (· + 2)).reverse := by
        rw [hlength]
        exact List.take_of_length_le (by simp)
      have hnext : (fun w : UInt16 => w + 2 + 1) = (· + 3) := by
        funext w
        rw [UInt16.add_assoc]
        rfl
      rw [hqs, hall, List.map_reverse, List.map_map]
      exact congrArg (fun f => (ps.map f).reverse) hnext
    · rw [hsp', hsp, hlength]
      grind

/-- A `JSR` at `$01FE` with SP at `$00`, so that its pushes wrap and the second one falls on its
operand, and another one in the subroutine that it calls. -/
theorem subroutine_linkage_of_two_calls :
    let memory := (((Memory.blank .flat).load 0x01FE [0x20, 0x10, 0x03]).load
      0x0310 [0x20, 0x00, 0x04, 0x60]).load 0x0400 [0x60]
    let c := { ofMemory memory {} with state := .running, pc := 0x01FE, sp := 0x00 }
    let s := (step.run c).state
    let t := (step.run s).state
    let u := (step.run t).state
    let e := (step.run u).state
    (c.config.stackCheck ≠ .fatal ∧ c.AtCall 0x10 0x03 ∧
      Descent Unit c [0x01FE, 0x0310] t ∧ Ascent Unit t [u.pc, e.pc] e) ∧
      s.pc = 0x0310 ∧ s.memory.peek 0x01FF = 0x00 ∧ u.pc = 0x0313 ∧ e.pc = 0x0201 ∧
      e.sp = 0x00 := by
  intro memory c s t u e
  have hcheck : c.config.stackCheck ≠ .fatal := by decide
  have hstays (c : Cpu) : LeavesStack Unit c c := ⟨⟨[], rfl, by simp⟩, rfl, fun _ => rfl⟩
  have hfirst : c.AtCall 0x10 0x03 := by
    refine ⟨⟨rfl, rfl, rfl, ?_⟩, ?_, ?_⟩ <;> decide +kernel
  have hsecond : s.AtCall 0x00 0x04 := by
    refine ⟨⟨?_, ?_, ?_, ?_⟩, ?_, ?_⟩ <;> decide +kernel
  have hthird : t.Executes .rts := by refine ⟨?_, ?_, ?_, ?_⟩ <;> decide +kernel
  have hfourth : u.Executes .rts := by refine ⟨?_, ?_, ?_, ?_⟩ <;> decide +kernel
  have hpcs : s.pc = 0x0310 := by decide +kernel
  have hdown : Descent Unit c [c.pc, s.pc] t :=
    .call (hstays c) hfirst (.call (hstays s) hsecond (.body (hstays t)))
  rw [hpcs] at hdown
  have hup : Ascent Unit t [u.pc, e.pc] e :=
    .back (hstays t) hthird (.back (hstays u) hfourth (.body (hstays e)))
  obtain ⟨hsingle, hnested⟩ := @subroutine_linkage Unit c hcheck
  obtain ⟨-, hpc, -⟩ := hsingle 0x10 0x03 hfirst
  obtain ⟨hqs, hsp⟩ := hnested _ _ _ _ hdown hup (by decide) rfl
  have hreturns : [u.pc, e.pc] = [0x0313, 0x0201] := hqs
  simp only [List.cons.injEq, and_true] at hreturns
  exact ⟨⟨hcheck, hfirst, hdown, hup⟩, hpc, by decide +kernel, hreturns.1, hreturns.2, hsp⟩

end Cpu

end NesCore
