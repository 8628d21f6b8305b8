import NesCore.Proofs.Lifecycle

/-!
# The ledger of a step

Cycles and waiting interrupts change in few places: a step settles the request that it answers or
drops, an entry counts seven cycles, a branch that is taken one or two, and the instruction those of
its row. `Charges` says what an action adds to the ledger where it succeeds, and that it adds
nothing where it fails; a sequence adds what its last part does. Together this is `ledger_of_step`:
each way in which a step can end, with the ledger it leaves and the interrupts it has entered.
-/

namespace NesCore

/-- The entry of an interrupt that an event reports. -/
def Event.entry? (e : Event) : Option Interrupt := e.notice?.bind Notice.entry?

/-- The interrupts entered on the way to an outcome, in order. -/
def Outcome.entries {σ ε α : Type} (o : Outcome σ ε α) : List Interrupt :=
  o.events.filterMap Event.entry?

namespace Ledger

/-- The ledger with more cycles. -/
def spend (l : Ledger) (k : UInt64) : Ledger := { l with cycles := l.cycles + k }

@[simp] theorem spend_zero (l : Ledger) : l.spend 0 = l := by simp [spend]

@[simp] theorem spend_spend (l : Ledger) (j k : UInt64) :
    (l.spend j).spend k = l.spend (j + k) := by
  simp [spend, UInt64.add_assoc]

@[simp] theorem cycles_spend (l : Ledger) (k : UInt64) : (l.spend k).cycles = l.cycles + k := rfl

@[simp] theorem nmiPending_spend (l : Ledger) (k : UInt64) :
    (l.spend k).nmiPending = l.nmiPending := rfl

@[simp] theorem irqPending_spend (l : Ledger) (k : UInt64) :
    (l.spend k).irqPending = l.irqPending := rfl

end Ledger

namespace Cpu

open NesCore.Action

variable {ε ε₁ α β : Type} {c : Cpu} {l : Ledger} {entries : List Interrupt} {k : UInt64}

/-! ## Actions that leave the ledger alone -/

theorem entries_bind (x : Action Cpu ε α) (f : α → Action Cpu ε β) (c : Cpu) :
    ((x >>= f).run c).entries =
      match (x.run c).result with
      | .ok a => (x.run c).entries ++ ((f a).run (x.run c).state).entries
      | .error _ => (x.run c).entries := by
  refine (filterMap_events_bind Event.entry? x f c).trans ?_
  cases (x.run c).result <;> rfl

theorem entries_busWrite (m : Memory) (a : UInt16) (v : UInt8) :
    ((Bus.write a v).run m).entries = [] := by
  simp only [Bus.write]
  cases m.write a v with
  | error e => rfl
  | ok after => cases m.isProtected a <;> rfl

/-- What is composed without the ledger leaves it alone and enters no interrupt, whether it succeeds
or fails. -/
theorem Composed.keeps_ledger {stack : Bool} {x : Action Cpu Fault α}
    (hx : Composed stack false x) (c : Cpu) :
    (x.run c).entries = [] ∧ (x.run c).state.ledger = c.ledger := by
  induction hx generalizing c with
  | pure | fail | read => exact ⟨rfl, rfl⟩
  | note _ h => exact ⟨by simp [Outcome.entries, Event.entry?, Event.notice?, h], rfl⟩
  | update h => exact ⟨rfl, h.ledger rfl c⟩
  | write a v => exact ⟨entries_busWrite c.memory a v, rfl⟩
  | checkWrap h origin wrap =>
    simp only [Cpu.checkWrap, entries_bind, state_bind, run_look, id]
    cases c.config.stackCheck <;> exact ⟨rfl, rfl⟩
  | look_bind h hf ih => exact ih c c
  | @bind _ _ x f hx hf ihx ihf =>
    obtain ⟨hentries, hledger⟩ := ihx c
    rw [entries_bind, state_bind, hentries]
    cases (x.run c).result with
    | error e => exact ⟨rfl, hledger⟩
    | ok b =>
      obtain ⟨hentries', hledger'⟩ := ihf b (x.run c).state
      exact ⟨hentries', hledger'.trans hledger⟩

/-! ## Charges -/

/-- From `c` the action enters the interrupts and adds the cycles to the ledger `l`, unless it
fails: then it has entered none and left the ledger as it is. -/
def Charges (x : Action Cpu ε α) (c : Cpu) (l : Ledger) (entries : List Interrupt) (k : UInt64) :
    Prop :=
  match (x.run c).result with
  | .ok _ => (x.run c).entries = entries ∧ (x.run c).state.ledger = l.spend k
  | .error _ => (x.run c).entries = [] ∧ (x.run c).state.ledger = l

namespace Charges

theorem of_composed {stack : Bool} {x : Action Cpu Fault α} (hx : Composed stack false x)
    (hl : c.ledger = l) : Charges x c l [] 0 := by
  obtain ⟨hentries, hledger⟩ := hx.keeps_ledger c
  rw [hl] at hledger
  unfold Charges
  split
  · exact ⟨hentries, hledger.trans l.spend_zero.symm⟩
  · exact ⟨hentries, hledger⟩

theorem look_bind {view : Cpu → β} {f : β → Action Cpu ε α}
    (h : Charges (f (view c)) c l entries k) : Charges (look view >>= f) c l entries k := h

theorem update_bind {g : Cpu → Cpu} {f : Unit → Action Cpu ε α}
    (h : Charges (f ()) (g c) l entries k) : Charges (update g >>= f) c l entries k := by
  unfold Charges at h ⊢
  rw [run_bind_ok (run_update g c)]
  exact h

/-- A sequence whose first part leaves the ledger alone, and decides on the charge. -/
theorem exists_bind {P : UInt64 → Prop} {x : Action Cpu ε β} {f : β → Action Cpu ε α}
    (hP : ∃ k, P k) (hx : Charges x c l [] 0)
    (hf : ∀ b s, s.ledger = l → ∃ k, P k ∧ Charges (f b) s l entries k) :
    ∃ k, P k ∧ Charges (x >>= f) c l entries k := by
  unfold Charges at hx ⊢
  rw [result_bind, entries_bind, state_bind]
  cases hresult : (x.run c).result with
  | error e =>
    rw [hresult] at hx
    exact hP.imp fun _ hk => ⟨hk, hx⟩
  | ok b =>
    rw [hresult] at hx
    obtain ⟨hentries, hledger⟩ := hx
    rw [hentries]
    exact hf b _ (hledger.trans l.spend_zero)

/-- A sequence whose first part leaves the ledger alone. -/
theorem bind {x : Action Cpu ε β} {f : β → Action Cpu ε α} (hx : Charges x c l [] 0)
    (hf : ∀ b s, s.ledger = l → Charges (f b) s l entries k) :
    Charges (x >>= f) c l entries k := by
  obtain ⟨_, rfl, h⟩ := exists_bind ⟨k, rfl⟩ hx fun b s hs => ⟨k, rfl, hf b s hs⟩
  exact h

/-- A sequence whose second part cannot fail. -/
theorem bind_of_succeeds {x : Action Cpu ε β} {f : β → Action Cpu ε α} {j : UInt64}
    (hx : Charges x c l entries j)
    (hf : ∀ b s, ∃ a, ((f b).run s).result = .ok a ∧ ((f b).run s).entries = [] ∧
      ((f b).run s).state.ledger = s.ledger.spend k) :
    Charges (x >>= f) c l entries (j + k) := by
  unfold Charges at hx ⊢
  rw [result_bind, entries_bind, state_bind]
  cases hresult : (x.run c).result with
  | error e =>
    rw [hresult] at hx
    exact hx
  | ok b =>
    rw [hresult] at hx
    obtain ⟨hentries, hledger⟩ := hx
    obtain ⟨a, hok, hentries', hledger'⟩ := hf b (x.run c).state
    simp only [hok]
    constructor
    · rw [hentries, hentries', List.append_nil]
    · rw [hledger', hledger, Ledger.spend_spend]

end Charges

/-! ## Interrupts -/

/-- The cycles of entering an interrupt that is due. -/
def entryCycles (c : Cpu) : UInt64 := if c.interruptDue.isSome then 7 else 0

/-- An NMI is always answered; an IRQ waits on behind an NMI, and is answered or dropped
otherwise. -/
theorem ledger_acknowledged (c : Cpu) :
    c.acknowledged.ledger = ⟨c.cycles, false, c.irqPending && c.nmiPending⟩ := by
  unfold acknowledged
  cases c.nmiPending <;> simp [ledger]

theorem charges_enterInterrupt (origin : UInt16) (kind : Interrupt) (hl : c.ledger = l) :
    Charges (enterInterrupt origin kind) c l [kind] 7 := by
  unfold enterInterrupt
  refine .look_bind (.bind (.of_composed (composed_pushWord _ _) hl) fun _ s hs => ?_)
  refine .bind (.of_composed (composed_push _ _) hs) fun _ s hs => ?_
  refine .bind (.of_composed (@composed_enterHandler false false _) hs) fun _ s hs => ?_
  rw [← hs]
  exact ⟨rfl, rfl⟩

theorem charges_serviceInterrupts (origin : UInt16) (c : Cpu) :
    Charges (serviceInterrupts origin) c c.acknowledged.ledger c.interruptDue.toList
      c.entryCycles := by
  have hentered {s : Cpu} {kind : Interrupt} (hs : s.ledger = c.acknowledged.ledger)
      (hdue : c.interruptDue = some kind) :
      Charges (do enterInterrupt origin kind; return some kind) s c.acknowledged.ledger
        c.interruptDue.toList c.entryCycles := by
    have hcycles : c.entryCycles = 7 + 0 := by simp [entryCycles, hdue]
    rw [hdue, hcycles]
    exact .bind_of_succeeds (charges_enterInterrupt origin kind hs) fun _ _ =>
      ⟨_, rfl, rfl, (Ledger.spend_zero _).symm⟩
  have hnone {x : Action Cpu Fault (Option Interrupt)} {s : Cpu} (hx : Composed true false x)
      (hs : s.ledger = c.acknowledged.ledger) (hdue : c.interruptDue = none) :
      Charges x s c.acknowledged.ledger c.interruptDue.toList c.entryCycles := by
    have hcycles : c.entryCycles = 0 := by simp [entryCycles, hdue]
    rw [hdue, hcycles]
    exact .of_composed hx hs
  unfold serviceInterrupts
  refine .look_bind ?_
  dsimp only [id]
  by_cases hn : c.nmiPending
  · rw [if_pos hn]
    have hack : c.acknowledged = { c with nmiPending := false } := if_pos hn
    exact .update_bind (hentered (by rw [hack]) (if_pos hn))
  have hack : c.acknowledged = { c with irqPending := false } := if_neg hn
  rw [if_neg hn]
  by_cases hi : c.irqPending
  · rw [if_pos hi]
    refine .update_bind ?_
    by_cases hm : c.status.interruptDisable
    · rw [if_pos hm]
      exact hnone (.bind (.note rfl fun _ => rfl) fun _ => .pure _) (by rw [hack])
        (by simp [interruptDue, hn, hm])
    · rw [if_neg hm]
      exact hentered (by rw [hack]) (by simp [interruptDue, hn, hi, hm])
  · have hc : { c with irqPending := false } = c := by rw [← Bool.eq_false_iff.2 hi]
    rw [if_neg hi]
    exact hnone (.pure _) (by rw [hack, hc]) (by simp [interruptDue, hn, hi])

/-! ## Instructions -/

/-- The cycles that a branch adds to those of its row. -/
def branchCycles (c : Cpu) (operand : Operand) : Operation → UInt64
  | .branch flag value =>
    if c.status.get flag = value then (if operand.crossed then 2 else 1) else 0
  | _ => 0

/-- The rows of the table take at least two cycles, and at most seven with a page penalty and a
branch. -/
theorem Instruction.cycles_bounds {ins : Instruction} (h : ins ∈ Instruction.table) :
    2 ≤ ins.cycles ∧
      ins.cycles + (if ins.pagePenalty then 1 else 0) + (if ins.operation.branches then 2 else 0)
        ≤ 7 := by
  have key : ∀ row ∈ Instruction.table, 2 ≤ row.cycles ∧
      row.cycles + (if row.pagePenalty then 1 else 0) + (if row.operation.branches then 2 else 0)
        ≤ 7 := by
    decide +kernel
  exact key ins h

theorem toNat_branchCycles_le (c : Cpu) (operand : Operand) (operation : Operation) :
    (c.branchCycles operand operation).toNat ≤ if operation.branches then 2 else 0 := by
  cases operation with
  | branch flag value =>
    simp only [branchCycles, Operation.branches]
    split_ifs <;> decide
  | _ => exact Nat.le_refl 0

/-- An instruction takes between two and seven cycles. -/
theorem toNat_cycles_bounds (c : Cpu) (operand : Operand) {ins : Instruction}
    (h : ins ∈ Instruction.table) :
    let k := c.branchCycles operand ins.operation + instructionCycles ins operand
    2 ≤ k.toNat ∧ k.toNat ≤ 7 := by
  intro k
  obtain ⟨hlow, hhigh⟩ := Instruction.cycles_bounds h
  have hbranch := c.toNat_branchCycles_le operand ins.operation
  have hpenalty : (if ins.pagePenalty && operand.crossed then 1 else 0 : UInt64).toNat ≤
      if ins.pagePenalty then 1 else 0 := by
    cases ins.pagePenalty <;> cases operand.crossed <;> decide
  have hk : k.toNat = (c.branchCycles operand ins.operation).toNat + (ins.cycles +
      (if ins.pagePenalty && operand.crossed then 1 else 0 : UInt64).toNat) := by
    simp only [k, instructionCycles, UInt64.toNat_add, UInt64.toNat_ofNat']
    omega
  omega

theorem charges_takeBranch (operand : Operand) (hl : c.ledger = l) :
    Charges (takeBranch operand) c l [] (if operand.crossed then 2 else 1) :=
  .bind (.of_composed (@composed_operandAddress false false _) hl) fun _ s hs =>
    ⟨rfl, by rw [← hs]; rfl⟩

theorem charges_execute (origin : UInt16) (operation : Operation) (operand : Operand)
    (hl : c.ledger = l) :
    Charges (execute origin operation operand) c l [] (c.branchCycles operand operation) := by
  have hcomposed := composed_execute origin operation operand
  cases operation with
  | branch flag value =>
    unfold execute branchCycles
    refine .look_bind ?_
    dsimp only [id]
    by_cases h : c.status.get flag = value
    · rw [if_pos h, if_pos h]
      exact charges_takeBranch operand hl
    · rw [if_neg h, if_neg h]
      exact .of_composed (.pure _ : Composed false false _) hl
  | _ => exact .of_composed hcomposed hl

theorem charges_executeNext (origin : UInt16) (hl : c.ledger = l) :
    ∃ k, (2 ≤ k.toNat ∧ k.toNat ≤ 7) ∧ Charges (executeNext origin) c l [] k := by
  have hP : ∃ k : UInt64, 2 ≤ k.toNat ∧ k.toNat ≤ 7 := ⟨2, by decide⟩
  unfold executeNext
  refine Charges.exists_bind hP (.of_composed (@composed_fetch false false) hl)
    fun opcode s hs => ?_
  cases hlookup : Instruction.lookup opcode with
  | none => exact hP.imp fun k hk => ⟨hk, rfl, hs⟩
  | some ins =>
    refine Charges.exists_bind hP (.of_composed (@composed_resolve false false _) hs)
      fun operand s hs => ?_
    refine ⟨_, toNat_cycles_bounds s operand (Instruction.mem_table_of_lookup hlookup), ?_⟩
    refine .bind_of_succeeds (charges_execute origin ins.operation operand hs) fun flow s => ?_
    cases flow <;> exact ⟨_, rfl, rfl, rfl⟩

/-! ## Resets and steps -/

/-- A reset counts seven cycles and forgets the interrupts that wait. -/
theorem ledger_reset (c : Cpu) : (reset.run c).state.ledger = ⟨7, false, false⟩ := by
  rw [run_reset]
  rfl

theorem ledger_faultedOnError (o : Outcome Cpu CpuError α) :
    (faultedOnError o).entries = o.entries ∧ (faultedOnError o).state.ledger = o.state.ledger := by
  unfold faultedOnError
  split <;> exact ⟨rfl, rfl⟩

/-- **The ledger of a step.** A running processor settles the request that it answers or drops. The
step fails before an interrupt is entered, or it fails after that with the seven cycles of an entry
counted, or it succeeds and counts two to seven cycles more. -/
theorem ledger_of_step (h : c.state = .running) :
    let entry := (serviceInterrupts c.pc).run c
    let o := step.run c
    let entered := c.acknowledged.ledger.spend c.entryCycles
    (∃ f e, entry.result = .error f ∧ o.result = .error e ∧ o.entries = [] ∧
      o.state.ledger = c.acknowledged.ledger) ∨
    (∃ e, entry.result = .ok c.interruptDue ∧ o.result = .error e ∧
      o.entries = c.interruptDue.toList ∧ o.state.ledger = entered) ∨
    (∃ out k, entry.result = .ok c.interruptDue ∧ o.result = .ok out ∧
      out.interrupt = c.interruptDue ∧ out.cycles = c.entryCycles + k ∧
      (2 ≤ k.toNat ∧ k.toNat ≤ 7) ∧ o.entries = c.interruptDue.toList ∧
      o.state.ledger = entered.spend k) := by
  intro entry o entered
  obtain ⟨hentries, hledger⟩ := ledger_faultedOnError (runningStep.run c)
  have ho : o = faultedOnError (runningStep.run c) := run_step_of_running h
  rw [ho, result_faultedOnError, hentries, hledger]
  have hentry := charges_serviceInterrupts c.pc c
  unfold Charges at hentry
  rcases runningStep_cases c with ⟨events, f, s, hservice, hrun⟩ |
    ⟨events, kind, s, hservice, hnext⟩
  · rw [hservice] at hentry
    rw [show entry = _ from hservice, hrun]
    exact .inl ⟨f, _, rfl, rfl, hentry⟩
  have hdue : kind = c.interruptDue :=
    ((follows_serviceInterrupts c.pc).of_ok (congrArg Outcome.result hservice)).1
  subst hdue
  rw [hservice] at hentry
  obtain ⟨hentries', hledger'⟩ := hentry
  -- What the instruction enters is nothing, whether it fails or succeeds.
  have hboth {events' : List Event} (h' : events'.filterMap Event.entry? = []) :
      (events ++ events').filterMap Event.entry? = c.interruptDue.toList := by
    rw [List.filterMap_append, h', List.append_nil]
    exact hentries'
  obtain ⟨k, hk, hcharges⟩ := charges_executeNext s.pc hledger'
  unfold Charges at hcharges
  rw [show entry = _ from hservice]
  refine .inr ?_
  rcases hnext with ⟨events', f, t, hexecute, hrun⟩ | ⟨events', opcode, flow, t, hexecute, hrun⟩
  · rw [hexecute] at hcharges
    rw [hrun]
    exact .inl ⟨_, rfl, rfl, hboth hcharges.1, hcharges.2⟩
  · rw [hexecute] at hcharges
    rw [hrun]
    refine .inr ⟨_, k, rfl, rfl, rfl, ?_, hk, hboth hcharges.1, hcharges.2⟩
    -- The cycles reported are a difference of counters, which may have wrapped in between.
    have hcycles : t.cycles = c.cycles + (c.entryCycles + k) := by
      rw [show t.cycles = t.ledger.cycles from rfl, hcharges.2, ledger_acknowledged]
      exact UInt64.add_assoc _ _ _
    rw [hcycles, UInt64.add_comm, UInt64.add_sub_cancel]

/-- The last case of `ledger_of_step`. -/
theorem ledger_of_step_ok {out : StepOutcome} (h : c.state = .running)
    (ho : (step.run c).result = .ok out) :
    out.interrupt = c.interruptDue ∧ (step.run c).entries = c.interruptDue.toList ∧
      (step.run c).state.ledger = c.acknowledged.ledger.spend out.cycles ∧
      ∃ k, out.cycles = c.entryCycles + k ∧ 2 ≤ k.toNat ∧ k.toNat ≤ 7 := by
  rcases ledger_of_step h with ⟨_, _, -, he, -⟩ | ⟨_, -, he, -⟩ |
    ⟨out', k, -, hout, hinterrupt, hcycles, hk, hentries, hledger⟩
  · rw [ho] at he
    cases he
  · rw [ho] at he
    cases he
  · rw [ho] at hout
    cases hout
    rw [Ledger.spend_spend, ← hcycles] at hledger
    exact ⟨hinterrupt, hentries, hledger, k, hcycles, hk⟩

end Cpu

end NesCore
