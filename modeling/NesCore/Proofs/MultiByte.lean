import NesCore.Proofs.Bytes
import NesCore.Proofs.FailedSteps
import NesCore.Proofs.StatusDiscipline

/-!
# Arithmetic on many bytes

Numbers of several bytes are added and subtracted byte by byte, from the low byte on: `LDA` takes a
byte of the one number, `ADC` or `SBC` brings in the byte of the other, and the carry goes from one
round to the next (`Chain`). A round is exact (`performs_sum`), and so is a chain of any length, by
induction on its rounds (`chain_sum`). Subtraction is the same with the complement of each byte, and
the complement of a number is that of its bytes.

Main statement: `chains_are_exact`.
-/

namespace NesCore

/-- The two instructions that take a carry and leave one for the next byte. -/
inductive Carrying
  | adc
  | sbc
  deriving DecidableEq, Repr

/-- The mnemonic. -/
def Carrying.mnemonic : Carrying → Mnemonic
  | adc => .adc
  | sbc => .sbc

/-- What is added to A for an operand: a subtraction adds the complement. -/
def Carrying.addend : Carrying → UInt8 → UInt8
  | adc, b => b
  | sbc, b => ~~~b

/-- The bytes of a round: the two operands and the result. -/
structure Round where
  a : UInt8
  b : UInt8
  r : UInt8
  deriving DecidableEq, Repr

namespace Cpu

open NesCore.Action Bytes

variable {c s t : Cpu} {m : Mnemonic} {v : UInt8} {k : Carrying} {round : Round}
  {rounds : List Round}

/-! ## Instructions that read -/

/-- The next instruction has the mnemonic, in any of its modes, and its operand can be read as the
byte. An interrupt that is due is entered before it. -/
structure Delivers (c : Cpu) (m : Mnemonic) (v : UInt8) : Prop where
  running : c.state = .running
  entry : ∃ kind, ((serviceInterrupts c.pc).run c).result = .ok kind
  operand : ∃ ins ∈ Instruction.table, ins.mnemonic = m ∧
    c.serviced.memory.read c.serviced.pc = .ok ins.opcode ∧
    ∃ operand, ((resolve ins.mode).run c.serviced.afterOpcode).result = .ok operand ∧
      ((readOperand operand).run c.serviced.afterOpcode).result = .ok v

theorem terms_ready (c : Cpu) : c.ready.terms = c.terms := by
  show (⟨c.afterEntry.memory.policy, c.afterEntry.config.stackCheck⟩ : Terms) = _
  rw [policy_afterEntry, (keeps_afterEntry c).2]
  rfl

/-- An instruction that only reads succeeds once its operand can be read. -/
theorem exists_of_delivers (h : c.Delivers m v) (hread : m.operation.access = .read) :
    ∃ mode pc cycles, c.ready.operandValue mode = v ∧ (∃ o, (step.run c).result = .ok o) ∧
      (step.run c).state =
        { c.ready.effect m.operation mode with pc := pc, cycles := cycles } := by
  obtain ⟨hrun, ⟨kind, hentry⟩, ins, hins, rfl, hopcode, operand, hresolve, hvalue⟩ := h
  have hreads : ins.operation.access = .read ∨ ins.operation.access = .modify := .inl hread
  have hserviced := serviced_of_ok hentry
  rw [hserviced] at hopcode hresolve hvalue
  rw [pc_afterEntry] at hopcode
  obtain ⟨hfound, hdemands⟩ := @grantsAll_of_operand c.ready _ _ _ hins hreads hresolve hvalue
  rw [terms_ready] at hdemands
  obtain ⟨hs, ho⟩ := step_of_row hrun hins hopcode
    ((follows_serviceInterrupts c.pc).grantsAll_of_ok hentry) hdemands
  rw [completed_of_next rfl (stackDemands_of_reads hreads c.ready).2] at hs
  exact ⟨ins.mode, _, _, hfound, ⟨_, ho⟩, hs⟩

/-- The converse: a step that succeeds in such an instruction was delivered its operand. -/
theorem delivers_of_step_ok {ins : Instruction} {o : StepOutcome} (h : c.state = .running)
    (ho : (step.run c).result = .ok o) (hl : Instruction.lookup o.opcode = some ins)
    (hread : ins.operation.access = .read) :
    c.Delivers ins.mnemonic (c.ready.operandValue ins.mode) := by
  have hentry : c.terms.GrantsAll c.entryDemands := fun d hd =>
    (step_ok_iff h).1 ⟨o, ho⟩ d (List.mem_append_left _ hd)
  obtain ⟨kind, hkind, -⟩ := (follows_serviceInterrupts c.pc).exists_of_grantsAll hentry
  obtain ⟨hopcode, operand, hresolve, hvalue⟩ := operand_of_step_ok h ho hl (.inl hread)
  have hserviced := serviced_of_step_ok h ho
  rw [← pc_afterEntry] at hopcode
  refine ⟨h, ⟨kind, hkind⟩, ins, Instruction.mem_table_of_lookup hl, rfl, ?_⟩
  rw [hserviced]
  exact ⟨hopcode, operand, hresolve, hvalue⟩

/-- A and the carry are the same when the instruction of a step comes to be executed. -/
theorem keeps_ready (hentry : ∃ kind, ((serviceInterrupts c.pc).run c).result = .ok kind) :
    c.ready.a = c.a ∧ c.ready.status.carry = c.status.carry ∧ c.ready.state = c.state := by
  obtain ⟨kind, hok⟩ := hentry
  have hsame := (onStack_serviceInterrupts c.pc c).1.a
  have ha : c.afterEntry.a = c.a := (congrArg (·.a) (serviced_of_ok hok)).symm.trans hsame
  have hcarry : c.afterEntry.status.carry = c.status.carry := by
    rw [status_afterEntry]
    split <;> rfl
  exact ⟨ha, hcarry, (keeps_afterEntry c).1⟩

/-- A load leaves the carry alone. -/
theorem state_of_load (h : c.Delivers .lda v) :
    (∃ o, (step.run c).result = .ok o) ∧ (step.run c).state.state = .running ∧
      (step.run c).state.a = v ∧ (step.run c).state.status.carry = c.status.carry := by
  obtain ⟨mode, pc, cycles, hvalue, hok, hs⟩ := exists_of_delivers h rfl
  obtain ⟨-, hcarry, hstate⟩ := keeps_ready h.entry
  refine ⟨hok, ?_⟩
  rw [hs]
  exact ⟨hstate.trans h.running, hvalue, hcarry⟩

/-- An addition or subtraction leaves the sum of A, the addend and the carry, for any setting of
the decimal flag. -/
theorem state_of_carrying (h : c.Delivers k.mnemonic v) :
    (∃ o, (step.run c).result = .ok o) ∧
    let sum := Alu.add c.a (k.addend v) c.status.carry
    (step.run c).state.state = .running ∧ (step.run c).state.a = sum.value ∧
      (step.run c).state.status.carry = sum.carry ∧
      (step.run c).state.status.overflow = sum.overflow ∧
      (step.run c).state.status.negative = Status.isNegative sum.value := by
  have hread : k.mnemonic.operation.access = .read := by cases k <;> rfl
  obtain ⟨mode, pc, cycles, rfl, hok, hs⟩ := exists_of_delivers h hread
  obtain ⟨ha, hcarry, hstate⟩ := keeps_ready h.entry
  have heffect : c.ready.effect k.mnemonic.operation mode = c.ready.withSum
      (Alu.add c.ready.a (k.addend (c.ready.operandValue mode)) c.ready.status.carry) := by
    cases k <;> rfl
  rw [ha, hcarry] at heffect
  refine ⟨hok, ?_⟩
  rw [hs, heffect]
  exact ⟨hstate.trans h.running, rfl, rfl, rfl, rfl⟩

/-! ## Rounds -/

/-- From `s` on a byte is loaded and another one added or subtracted, which leaves `t`. Between the
two instructions A and the carry are left alone. -/
def Performs (k : Carrying) (s : Cpu) (round : Round) (t : Cpu) : Prop :=
  s.Delivers .lda round.a ∧ ∃ u : Cpu, u.a = (step.run s).state.a ∧
    u.status.carry = (step.run s).state.status.carry ∧ u.Delivers k.mnemonic round.b ∧
    t = (step.run u).state ∧ round.r = t.a

/-- Rounds from `s` to `t`. Whatever happens between two rounds leaves the carry alone. -/
inductive Chain (k : Carrying) : Cpu → List Round → Cpu → Prop
  | one {s t : Cpu} {round : Round} (h : Performs k s round t) : Chain k s [round] t
  | more {s t u v : Cpu} {round : Round} {rounds : List Round} (h : Performs k s round t)
    (hcarry : u.status.carry = t.status.carry) (rest : Chain k u rounds v) :
    Chain k s (round :: rounds) v

/-- One round is exact in both readings of its bytes. -/
theorem performs_sum (h : Performs k s round t) :
    t.state = .running ∧
    round.r.toNat + 256 * t.status.carry.toNat =
      round.a.toNat + (k.addend round.b).toNat + s.status.carry.toNat ∧
    (t.status.overflow = true ↔ ¬ InRange 1
      (round.a.toInt8.toInt + (k.addend round.b).toInt8.toInt + s.status.carry.toNat)) := by
  obtain ⟨hload, u, ha, hcarry, hadd, rfl, hr⟩ := h
  obtain ⟨-, -, hloaded, hkept⟩ := state_of_load hload
  obtain ⟨-, hrunning, hvalue, hcarry', hoverflow, -⟩ := state_of_carrying hadd
  rw [ha, hloaded, hcarry, hkept] at hvalue hcarry' hoverflow
  rw [hr, hvalue, hcarry', hoverflow, inRange_one]
  exact ⟨hrunning, Alu.add_value_toNat _ _ _, overflow_add_iff⟩

/-! ## Chains -/

/-- The addends of a chain. -/
def addends (k : Carrying) (rounds : List Round) : List UInt8 :=
  rounds.map fun round => k.addend round.b

theorem Chain.ne_nil (h : Chain k s rounds t) : rounds ≠ [] := by
  cases h <;> exact List.cons_ne_nil _ _

/-- The run lemma: what each round says of its bytes, a chain says of its numbers. -/
theorem chain_sum (h : Chain k s rounds t) :
    t.state = .running ∧
    value (rounds.map Round.r) + 256 ^ rounds.length * t.status.carry.toNat =
      value (rounds.map Round.a) + value (addends k rounds) + s.status.carry.toNat ∧
    (t.status.overflow = true ↔ ¬ InRange rounds.length
      (signed (rounds.map Round.a) + signed (addends k rounds) + s.status.carry.toNat)) := by
  induction h with
  | @one s t round h =>
    obtain ⟨hrunning, hsum, hoverflow⟩ := performs_sum h
    refine ⟨hrunning, ?_, ?_⟩
    · simpa [addends, value_cons] using hsum
    · simpa [addends, signed_singleton] using hoverflow
  | @more s t u v round rounds h hcarry rest ih =>
    obtain ⟨-, hsum, -⟩ := performs_sum h
    obtain ⟨hrunning, hsums, hoverflow⟩ := ih
    rw [hcarry] at hsums hoverflow
    have hne : rounds.map Round.a ≠ [] := by simpa using rest.ne_nil
    have hne' : addends k rounds ≠ [] := by simpa [addends] using rest.ne_nil
    have haddends : addends k (round :: rounds) = k.addend round.b :: addends k rounds := rfl
    refine ⟨hrunning, ?_, ?_⟩
    · rw [haddends, List.map_cons, List.map_cons, List.length_cons, value_cons, value_cons,
        value_cons, Nat.pow_succ, Nat.mul_right_comm, Nat.mul_comm _ 256]
      omega
    · -- The low bytes and the carry they leave make up the low byte of the result.
      have hlow : (round.a.toNat : Int) + 256 * signed (rounds.map Round.a) +
          ((k.addend round.b).toNat + 256 * signed (addends k rounds)) + s.status.carry.toNat =
          round.r.toNat + 256 * (signed (rounds.map Round.a) + signed (addends k rounds) +
            t.status.carry.toNat) := by
        omega
      rw [haddends, List.map_cons, List.length_cons, signed_cons _ hne, signed_cons _ hne', hlow,
        inRange_cons (List.length_pos_iff.2 rest.ne_nil)]
      exact hoverflow

/-- **Chains of `ADC` and `SBC` are exact.** For any number of rounds, any bytes, any carry at the
start and any way in which the operands are found: the results and the last carry are the sum of
the two numbers and the first carry, or their difference with the carry as a missing borrow; and
the overflow flag says exactly whether the sum or difference of the signed numbers has no place in
as many bytes. -/
theorem chains_are_exact (s t : Cpu) (rounds : List Round) :
    let n := rounds.length
    let a := rounds.map Round.a
    let b := rounds.map Round.b
    let r := rounds.map Round.r
    let c := s.status.carry.toNat
    let C := t.status.carry.toNat
    (Chain .adc s rounds t → t.state = .running ∧
      value r + C * 256 ^ n = value a + value b + c ∧
      (t.status.overflow = true ↔ ¬ InRange n (signed a + signed b + c))) ∧
    (Chain .sbc s rounds t → t.state = .running ∧
      (value r : Int) - (1 - C) * 256 ^ n = value a - value b - (1 - c) ∧
      (t.status.overflow = true ↔ ¬ InRange n (signed a - signed b - (1 - c)))) := by
  intro n a b r c C
  refine ⟨fun h => ?adc, fun h => ?sbc⟩
  case adc =>
    obtain ⟨hrunning, hsum, hoverflow⟩ := chain_sum h
    rw [Nat.mul_comm] at hsum
    exact ⟨hrunning, hsum, hoverflow⟩
  case sbc =>
    obtain ⟨hrunning, hsum, hoverflow⟩ := chain_sum h
    have haddends : addends .sbc rounds = complement b := by
      show rounds.map _ = (rounds.map Round.b).map _
      rw [List.map_map]
      rfl
    have hne : b ≠ [] := by simpa [b] using h.ne_nil
    have hlength : b.length = n := List.length_map _
    have hcomplement := value_complement b
    rw [hlength] at hcomplement
    rw [haddends] at hsum hoverflow
    rw [signed_complement hne] at hoverflow
    have hdifference : signed a + (-1 - signed b) + c = signed a - signed b - (1 - c) := by ring
    refine ⟨hrunning, ?_, hdifference ▸ hoverflow⟩
    have hsum' : (value r : Int) + 256 ^ n * C = value a + value (complement b) + c := by
      exact_mod_cast hsum
    have hcomplement' : (value (complement b) : Int) = 256 ^ n - 1 - value b := by
      have hcast : (value (complement b) : Int) + value b + 1 = 256 ^ n := by
        exact_mod_cast hcomplement
      omega
    rw [hcomplement'] at hsum'
    linarith

/-- `$7FFF + $0001` in two rounds, with the operands in four modes and the decimal flag set. -/
theorem chains_are_exact_of_two_rounds :
    let program : List UInt8 := [0xA9, 0xFF, 0x65, 0x10, 0xAD, 0x00, 0x03, 0x71, 0x20]
    let memory := ((((Memory.blank .flat).load 0x0200 program).load 0x0010 [0x01]).load
      0x0020 [0x10, 0x03]).load 0x0300 [0x7F]
    let s := { ofMemory memory {} with
      state := .running, pc := 0x0200, y := 5, status := Status.ofByte 0x08 }
    let u := (step.run s).state
    let t := (step.run u).state
    let u' := (step.run t).state
    let t' := (step.run u').state
    let rounds : List Round := [⟨0xFF, 0x01, 0x00⟩, ⟨0x7F, 0x00, 0x80⟩]
    Chain .adc s rounds t' ∧
      0x8000 + t'.status.carry.toNat * 256 ^ 2 = 0x7FFF + 0x0001 ∧ t'.status.overflow = true := by
  intro program memory s u t u' t' rounds
  have hfirst : Performs .adc s ⟨0xFF, 0x01, 0x00⟩ t := by
    refine ⟨⟨rfl, ⟨none, by decide +kernel⟩, ⟨0xA9, .lda, .immediate, 2⟩, by decide, rfl,
        by decide +kernel, ⟨.immediate, some 0x0201, false⟩, by decide +kernel,
        by decide +kernel⟩,
      u, rfl, rfl, ⟨by decide +kernel, ⟨none, by decide +kernel⟩, ⟨0x65, .adc, .zeroPage, 3⟩,
        by decide, rfl, by decide +kernel, ⟨.zeroPage, some 0x0010, false⟩, by decide +kernel,
        by decide +kernel⟩, rfl, by decide +kernel⟩
  have hsecond : Performs .adc t ⟨0x7F, 0x00, 0x80⟩ t' := by
    refine ⟨⟨by decide +kernel, ⟨none, by decide +kernel⟩, ⟨0xAD, .lda, .absolute, 4⟩, by decide,
        rfl, by decide +kernel, ⟨.absolute, some 0x0300, false⟩, by decide +kernel,
        by decide +kernel⟩,
      u', rfl, rfl, ⟨by decide +kernel, ⟨none, by decide +kernel⟩, ⟨0x71, .adc, .indirectY, 5⟩,
        by decide, rfl, by decide +kernel, ⟨.indirectY, some 0x0315, false⟩, by decide +kernel,
        by decide +kernel⟩, rfl, by decide +kernel⟩
  have hchain : Chain .adc s rounds t' := .more hfirst rfl (.one hsecond)
  obtain ⟨-, hsum, hoverflow⟩ := (chains_are_exact s t' rounds).1 hchain
  refine ⟨hchain, hsum, hoverflow.2 ?_⟩
  have hsigned : signed (rounds.map Round.a) + signed (rounds.map Round.b) +
      s.status.carry.toNat = 0x8000 := by decide +kernel
  rw [hsigned]
  unfold InRange
  decide

end Cpu

end NesCore
