import NesCore.Cpu.Run
import NesCore.Proofs.Composed

/-!
# Memory changes only on record

Whatever the processor does, memory ends as the recorded accesses leave it, one after the other,
and the settings stay: `Recorded` holds of single accesses and stack checks, therefore of everything
composed of them (`recorded_of_composed`), and so of a step (`recorded_step`) and a reset, also
where they fail. What every single write keeps, the processor keeps (`Recorded.memory_induction`).
-/

namespace NesCore.Cpu

open NesCore.Action

variable {ε ε₁ α β : Type}

/-- The action leaves memory as its accesses do, and does not touch the settings. -/
def Recorded (x : Action Cpu ε α) : Prop :=
  ∀ c, (x.run c).state.memory = c.memory.replay (x.run c).accesses ∧
    (x.run c).state.config = c.config

namespace Recorded

/-! ## Composition -/

theorem pure (a : α) : Recorded (pure a : Action Cpu ε α) := fun _ => ⟨rfl, rfl⟩

theorem fail (e : ε) : Recorded (fail e : Action Cpu ε α) := fun _ => ⟨rfl, rfl⟩

theorem look (view : Cpu → α) : Recorded (look view : Action Cpu ε α) := fun _ => ⟨rfl, rfl⟩

theorem note (n : Notice) : Recorded (note n : Action Cpu ε Unit) := fun _ => ⟨rfl, rfl⟩

theorem update {f : Cpu → Cpu} (hf : ∀ c, (f c).memory = c.memory ∧ (f c).config = c.config) :
    Recorded (update f : Action Cpu ε Unit) := hf

theorem bind {x : Action Cpu ε α} {f : α → Action Cpu ε β} (hx : Recorded x)
    (hf : ∀ a, Recorded (f a)) : Recorded (x >>= f) := by
  intro c
  obtain ⟨hmemory, hconfig⟩ := hx c
  simp only [state_bind, accesses_bind]
  cases (x.run c).result with
  | error e => exact ⟨hmemory, hconfig⟩
  | ok a =>
    obtain ⟨hmemory', hconfig'⟩ := hf a (x.run c).state
    exact ⟨by rw [Memory.replay_append, ← hmemory]; exact hmemory', hconfig'.trans hconfig⟩

theorem mapError {x : Action Cpu ε α} (hx : Recorded x) (f : ε → ε₁) :
    Recorded (x.mapError f) := hx

theorem ite {p : Prop} [Decidable p] {x y : Action Cpu ε α} (hx : Recorded x)
    (hy : Recorded y) : Recorded (if p then x else y) := by
  split
  · exact hx
  · exact hy

end Recorded

/-! ## Composed actions -/

theorem recorded_onBus {x : Action Memory BusError α}
    (hx : ∀ m, (x.run m).state = m.replay (x.run m).accesses) : Recorded (onBus x) :=
  fun c => ⟨hx c.memory, rfl⟩

theorem recorded_read (a : UInt16) : Recorded (read a) := recorded_onBus fun _ => rfl

theorem recorded_write (a : UInt16) (v : UInt8) : Recorded (write a v) :=
  recorded_onBus fun m => by rw [Bus.accesses_write, Bus.state_write]; rfl

theorem recorded_checkWrap (origin : UInt16) (wrap : StackWrap) :
    Recorded (checkWrap origin wrap) := by
  unfold checkWrap
  refine .bind (.look _) fun c => ?_
  cases c.config.stackCheck with
  | off => exact .pure _
  | warn => exact .note _
  | fatal => exact .fail _

/-- What is recorded of single accesses is recorded of everything composed of them. -/
theorem recorded_of_composed {stack counts : Bool} {x : Action Cpu Fault α}
    (hx : Composed stack counts x) : Recorded x := by
  induction hx with
  | pure a => exact .pure a
  | fail e => exact .fail e
  | note => exact .note _
  | update hg => exact .update fun c => ⟨hg.memory c, hg.config c⟩
  | read a => exact recorded_read a
  | write a v => exact recorded_write a v
  | checkWrap _ origin wrap => exact recorded_checkWrap origin wrap
  | look_bind _ _ ih => exact fun c => ih c c
  | bind _ _ ihx ihf => exact .bind ihx ihf

/-! ## Steps -/

theorem recorded_proceed (origin : UInt16) (ins : Instruction) (flow : Flow) :
    Recorded (proceed origin ins flow) := by
  cases flow with
  | next => exact .update fun _ => ⟨rfl, rfl⟩
  | jump => exact .pure _
  | halt => exact .bind (.update fun _ => ⟨rfl, rfl⟩) fun _ => .note _

theorem recorded_executeNext (origin : UInt16) : Recorded (executeNext origin) := by
  unfold executeNext
  refine .bind (recorded_of_composed (@composed_fetch false false)) fun opcode => ?_
  cases Instruction.lookup opcode with
  | none => exact .fail _
  | some ins =>
    exact .bind (recorded_of_composed (@composed_resolve false false _)) fun operand =>
      .bind (recorded_of_composed (composed_execute _ _ _)) fun flow =>
        .bind (recorded_proceed _ _ _) fun _ => .bind (.update fun _ => ⟨rfl, rfl⟩) fun _ => .pure _

theorem recorded_runningStep : Recorded runningStep :=
  .bind (.look _) fun _ =>
    .bind (.mapError (recorded_of_composed (composed_serviceInterrupts _)) _) fun _ =>
      .bind (.look _) fun _ => .bind (.mapError (recorded_executeNext _) _) fun _ =>
        .bind (.look _) fun _ => .pure _

theorem recorded_step : Recorded step := by
  intro c
  cases h : c.state with
  | running =>
    rw [run_step_of_running h]
    have hr := recorded_runningStep c
    unfold faultedOnError
    split
    · exact hr
    · exact hr
  | halted =>
    rw [run_step_of_halted h]
    exact ⟨rfl, rfl⟩
  | resetPending =>
    rw [run_step_of_not_ready (.inl h)]
    exact ⟨rfl, rfl⟩
  | faulted =>
    rw [run_step_of_not_ready (.inr h)]
    exact ⟨rfl, rfl⟩

theorem recorded_reset : Recorded reset :=
  .bind (.update fun _ => ⟨rfl, rfl⟩) fun _ =>
    .bind (.mapError (recorded_of_composed (@composed_readWord false false _)) _) fun _ =>
      .bind (.update fun _ => ⟨rfl, rfl⟩) fun _ => .bind (.look _) fun _ => .note _

/-- What every write keeps, a recorded action keeps, whether it succeeds or fails. -/
theorem Recorded.memory_induction {P : Memory → Prop}
    (hw : ∀ m a v, P m → P (m.written a v)) {x : Action Cpu ε α} (hx : Recorded x) {c : Cpu}
    (hc : P c.memory) : P (x.run c).state.memory := by
  rw [(hx c).1]
  exact Memory.replay_induction hw hc _

end NesCore.Cpu
