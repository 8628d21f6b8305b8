import NesCore.Proofs.Invariant
import NesCore.Proofs.Lifecycle
import NesCore.Proofs.StackPage

/-!
# Steps that fail

An instruction that is refused by the bus, or that has no row in the table, leaves nothing behind
but PC: it reads all it needs before it changes anything, and its last access is its only write
(`AllOrNothing`). What works on the stack is different. It may have pushed or pulled before a fatal
check stops it, but it works on the stack alone (`OnStack`), and so it fails for no other reason.
`allOrNothing_execute` goes through the operations with these two notions.

Main statement: `failed_steps`.
-/

namespace NesCore

/-- The fault of a fatal stack check. -/
def Fault.IsStack : Fault → Prop
  | .stack .. => True
  | .illegalOpcode _ | .bus _ | .noStorage _ | .notRunning => False

namespace Cpu

open NesCore.Action

variable {α β : Type} {c d : Cpu} {origin : UInt16}

/-! ## Outside the stack -/

/-- The registers that no push or pull touches, and the cells outside page one, are the same. -/
structure SameOffStack (c d : Cpu) : Prop where
  a : d.a = c.a := by rfl
  x : d.x = c.x := by rfl
  y : d.y = c.y := by rfl
  cell : ∀ n, ¬ IsStack n → d.memory.cell n = c.memory.cell n := by intros; rfl

namespace SameOffStack

theorem refl (c : Cpu) : SameOffStack c c := {}

theorem trans {s : Cpu} (h : SameOffStack c d) (h' : SameOffStack d s) : SameOffStack c s where
  a := h'.a.trans h.a
  x := h'.x.trans h.x
  y := h'.y.trans h.y
  cell n hn := (h'.cell n hn).trans (h.cell n hn)

end SameOffStack

/-! ## Actions on the stack -/

/-- The action leaves all but the stack alone, and only a stack check makes it fail. -/
def OnStack (x : Action Cpu Fault α) : Prop :=
  ∀ c, SameOffStack c (x.run c).state ∧ ∀ e, (x.run c).result = .error e → e.IsStack

namespace OnStack

theorem pure (a : α) : OnStack (pure a) := fun c => ⟨.refl c, nofun⟩

theorem look (view : Cpu → α) : OnStack (look view) := fun c => ⟨.refl c, nofun⟩

theorem note (n : Notice) : OnStack (note n) := fun c => ⟨.refl c, nofun⟩

theorem update {f : Cpu → Cpu} (hf : ∀ c, SameOffStack c (f c)) : OnStack (update f) :=
  fun c => ⟨hf c, nofun⟩

theorem bind {x : Action Cpu Fault α} {f : α → Action Cpu Fault β} (hx : OnStack x)
    (hf : ∀ a, OnStack (f a)) : OnStack (x >>= f) := by
  intro c
  obtain ⟨hsame, hstack⟩ := hx c
  rw [state_bind, result_bind]
  cases hr : (x.run c).result with
  | error e =>
    refine ⟨hsame, fun e' he => ?_⟩
    cases he
    exact hstack e hr
  | ok a =>
    obtain ⟨hsame', hstack'⟩ := hf a (x.run c).state
    exact ⟨hsame.trans hsame', hstack'⟩

theorem ite {p : Prop} [Decidable p] {x y : Action Cpu Fault α} (hx : OnStack x)
    (hy : OnStack y) : OnStack (if p then x else y) := by
  split
  · exact hx
  · exact hy

end OnStack

theorem onStack_checkWrap (origin : UInt16) (wrap : StackWrap) :
    OnStack (checkWrap origin wrap) := by
  unfold checkWrap
  refine .bind (.look _) fun c => ?_
  cases c.config.stackCheck with
  | off => exact .pure _
  | warn => exact .note _
  | fatal =>
    intro s
    refine ⟨.refl s, fun e he => ?_⟩
    cases he
    trivial

theorem onStack_write (sp v : UInt8) : OnStack (write (stackAddress sp) v) := by
  intro c
  obtain ⟨-, hgranted, -⟩ := takes_stackAddress c.memory sp
  rw [state_write, result_write, if_neg hgranted]
  refine ⟨{ cell := fun n hn => ?_ }, nofun⟩
  have hne : stackAddress sp ≠ n := fun h => hn (h ▸ isStack_stackAddress sp)
  exact (cell_written_stackAddress _ _ _ _).trans (if_neg hne)

/-- What no policy rules can always be read. -/
theorem onStack_read {a : UInt16} (h : ¬ IsIo a) : OnStack (read a) := by
  intro c
  rw [run_read_of_not_refuses (c.memory.policy.not_refuses_of_not_isIo h)]
  exact ⟨.refl c, nofun⟩

theorem onStack_setSp (sp : UInt8) : OnStack (update fun c => c.setRegister .sp sp) :=
  .update fun _ => {}

theorem onStack_push (origin : UInt16) (v : UInt8) : OnStack (push origin v) := by
  have hrest (sp : UInt8) : OnStack (do
      write (stackAddress sp) v
      update fun c => c.setRegister .sp (sp - 1)) :=
    .bind (onStack_write sp v) fun _ => onStack_setSp _
  unfold push
  exact .bind (.look _) fun sp =>
    .ite (.bind (onStack_checkWrap _ _) fun _ => hrest sp) (hrest sp)

theorem onStack_pull (origin : UInt16) : OnStack (pull origin) := by
  have hrest (sp : UInt8) : OnStack (do
      update fun c => c.setRegister .sp (sp + 1)
      read (stackAddress (sp + 1))) :=
    .bind (onStack_setSp _) fun _ => onStack_read (not_isIo_stackAddress _)
  unfold pull
  exact .bind (.look _) fun sp =>
    .ite (.bind (onStack_checkWrap _ _) fun _ => hrest sp) (hrest sp)

theorem onStack_pushWord (origin w : UInt16) : OnStack (pushWord origin w) :=
  .bind (onStack_push _ _) fun _ => onStack_push _ _

theorem onStack_pullWord (origin : UInt16) : OnStack (pullWord origin) :=
  .bind (onStack_pull _) fun _ => .bind (onStack_pull _) fun _ => .pure _

theorem onStack_pullStatusByte (origin : UInt16) : OnStack (pullStatusByte origin) :=
  .bind (onStack_pull _) fun _ => .update fun _ => {}

/-- The vectors lie in the ROM, so a handler is always found. -/
theorem onStack_enterHandler {vector : UInt16} (hlow : romStart ≤ vector)
    (hhigh : romStart ≤ vector + 1) : OnStack (enterHandler vector) := by
  unfold enterHandler
  rw [readWord_eq]
  refine .bind (.update fun _ => {}) fun _ => .bind ?_ fun w => ?_
  · exact .bind (onStack_read (IoPolicy.not_isIo_of_rom hlow)) fun _ =>
      .bind (onStack_read (IoPolicy.not_isIo_of_rom hhigh)) fun _ => .pure _
  · exact .update fun _ => {}

theorem onStack_softwareInterrupt (origin : UInt16) : OnStack (softwareInterrupt origin) :=
  .bind (onStack_pushWord _ _) fun _ => .bind (.look _) fun _ => .bind (onStack_push _ _) fun _ =>
    .bind (onStack_enterHandler (by decide) (by decide)) fun _ => .pure _

theorem onStack_enterInterrupt (origin : UInt16) (kind : Interrupt) :
    OnStack (enterInterrupt origin kind) := by
  have hhandler : OnStack (enterHandler kind.vector) := by
    cases kind <;> exact onStack_enterHandler (by decide) (by decide)
  exact .bind (.look _) fun _ => .bind (onStack_pushWord _ _) fun _ =>
    .bind (onStack_push _ _) fun _ => .bind hhandler fun _ =>
      .bind (.update fun _ => {}) fun _ =>
        .bind (.look _) fun _ => .note _

theorem onStack_serviceInterrupts (origin : UInt16) : OnStack (serviceInterrupts origin) := by
  unfold serviceInterrupts
  refine .bind (.look _) fun c => .ite ?nmi (.ite ?irq (.pure _))
  case nmi =>
    exact .bind (.update fun _ => {}) fun _ =>
      .bind (onStack_enterInterrupt _ _) fun _ => .pure _
  case irq =>
    refine .bind (.update fun _ => {}) fun _ => .ite ?masked ?entered
    case masked => exact .bind (.note _) fun _ => .pure _
    case entered => exact .bind (onStack_enterInterrupt _ _) fun _ => .pure _

/-! ## All or nothing -/

/-- If the action fails, it leaves the state as it was; a fatal stack check may leave it with other
contents of the stack. -/
def AllOrNothing (x : Action Cpu Fault α) : Prop :=
  ∀ c e, (x.run c).result = .error e →
    (e.IsStack → SameOffStack c (x.run c).state) ∧ (¬ e.IsStack → (x.run c).state = c)

/-- The action does not fail. -/
def Succeeds (x : Action Cpu Fault α) : Prop := ∀ c e, (x.run c).result ≠ .error e

theorem succeeds_update (f : Cpu → Cpu) : Succeeds (update f) := by
  intro c e h
  cases h

theorem succeeds_pure (a : α) : Succeeds (pure a) := by
  intro c e h
  cases h

theorem Succeeds.bind {x : Action Cpu Fault α} {f : α → Action Cpu Fault β} (hx : Succeeds x)
    (hf : ∀ a, Succeeds (f a)) : Succeeds (x >>= f) := by
  intro c e
  rw [result_bind]
  cases hr : (x.run c).result with
  | error e' => exact absurd hr (hx c e')
  | ok a => exact hf a _ e

namespace AllOrNothing

theorem of_onStack {x : Action Cpu Fault α} (hx : OnStack x) : AllOrNothing x := by
  intro c e he
  exact ⟨fun _ => (hx c).1, fun hn => absurd ((hx c).2 e he) hn⟩

theorem of_succeeds {x : Action Cpu Fault α} (hx : Succeeds x) : AllOrNothing x := by
  intro c e he
  exact absurd he (hx c e)

theorem of_still {x : Action Cpu Fault α} (hx : Still x) : AllOrNothing x := by
  intro c e _
  rw [hx c]
  exact ⟨fun _ => .refl c, fun _ => rfl⟩

/-- What is read first costs nothing. -/
theorem still_bind {x : Action Cpu Fault α} {f : α → Action Cpu Fault β} (hx : Still x)
    (hf : ∀ a, AllOrNothing (f a)) : AllOrNothing (x >>= f) := by
  intro c e he
  rw [result_bind] at he
  rw [state_bind]
  cases hr : (x.run c).result with
  | error e' =>
    show (_ → SameOffStack c (x.run c).state) ∧ (_ → (x.run c).state = c)
    rw [hx c]
    exact ⟨fun _ => .refl c, fun _ => rfl⟩
  | ok a =>
    rw [hr, hx c] at he
    show (_ → SameOffStack c ((f a).run (x.run c).state).state) ∧
      (_ → ((f a).run (x.run c).state).state = c)
    rw [hx c]
    exact hf a c e he

/-- What cannot fail may follow. -/
theorem bind_succeeds {x : Action Cpu Fault α} {f : α → Action Cpu Fault β}
    (hx : AllOrNothing x) (hf : ∀ a, Succeeds (f a)) : AllOrNothing (x >>= f) := by
  intro c e he
  rw [result_bind] at he
  rw [state_bind]
  cases hr : (x.run c).result with
  | error e' =>
    rw [hr] at he
    cases he
    exact hx c e hr
  | ok a =>
    rw [hr] at he
    exact absurd he (hf a _ e)

end AllOrNothing

/-- A refused write changes nothing. -/
theorem allOrNothing_writeOperand (operand : Operand) (v : UInt8) :
    AllOrNothing (writeOperand operand v) := by
  have hwrite (a : UInt16) : AllOrNothing (write a v) := by
    intro c e he
    rw [result_write] at he
    rw [state_write]
    split at he
    · next hr =>
      rw [Memory.written_of_refuses v hr]
      exact ⟨fun _ => .refl c, fun _ => rfl⟩
    · cases he
  unfold writeOperand
  split
  · exact .of_succeeds (succeeds_update _)
  · exact .of_still (.fail _)
  · exact hwrite _
  · exact .of_still (.fail _)

/-- An operation reads before it changes anything, or it works on the stack. -/
theorem allOrNothing_execute (origin : UInt16) (operation : Operation) (operand : Operand) :
    AllOrNothing (execute origin operation operand) := by
  have hset {γ : Type} (f : Cpu → Cpu) (b : γ) : Succeeds (do update f; return b) :=
    .bind (succeeds_update f) fun _ => succeeds_pure b
  have hpc (pc : UInt16) (b : Flow) :
      OnStack (do update fun c => { c with pc := pc }; return b) :=
    .bind (.update fun _ => {}) fun _ => .pure b
  unfold execute
  refine .still_bind (.look _) fun c => ?_
  cases operation with
  | load | add | subtract | logic | compare | bitTest =>
    exact .still_bind (still_readOperand _) fun _ => .of_succeeds (hset _ _)
  | store => exact .bind_succeeds (allOrNothing_writeOperand _ _) fun _ => succeeds_pure _
  | transfer source target => cases target <;> exact .of_succeeds (hset _ _)
  | pushAccumulator | pushStatus =>
    exact .of_onStack (.bind (onStack_push _ _) fun _ => .pure _)
  | pullAccumulator =>
    exact .bind_succeeds (.of_onStack (onStack_pull _)) fun _ => hset _ _
  | pullStatus => exact .of_onStack (.bind (onStack_pullStatusByte _) fun _ => .pure _)
  | shift | stepOperand =>
    exact .still_bind (still_readOperand _) fun _ =>
      .bind_succeeds (allOrNothing_writeOperand _ _) fun _ => hset _ _
  | stepRegister | setFlag => exact .of_succeeds (hset _ _)
  | branch flag value =>
    dsimp only
    split
    · exact .still_bind (still_operandAddress _) fun _ => .of_succeeds (hset _ _)
    · exact .of_succeeds (succeeds_pure _)
  | jump => exact .still_bind (still_operandAddress _) fun _ => .of_succeeds (hset _ _)
  | call =>
    exact .still_bind (still_operandAddress _) fun target =>
      .of_onStack (.bind (onStack_pushWord _ _) fun _ => hpc target .jump)
  | returnFromCall =>
    exact .of_onStack (.bind (onStack_pullWord _) fun back => hpc (back + 1) .jump)
  | returnFromInterrupt =>
    exact .of_onStack (.bind (onStack_pullStatusByte _) fun _ =>
      .bind (onStack_pullWord _) fun back => hpc back .jump)
  | brk =>
    dsimp only [id]
    cases c.config.brk with
    | halt => exact .of_succeeds (succeeds_pure _)
    | interrupt => exact .of_onStack (onStack_softwareInterrupt _)
  | nop => exact .of_succeeds (succeeds_pure _)

/-! ## Instructions -/

/-- Where PC is once the opcode was asked for: a failed fetch does not move it. -/
def pcBehindFetch (c : Cpu) : UInt16 :=
  match c.memory.read c.pc with
  | .error _ => c.pc
  | .ok _ => c.pc + 1

theorem run_fetch_of_refuses (h : c.memory.policy.Refuses c.pc) :
    fetch.run c = ⟨[.read c.pc none], .error (.bus (.unmapped c.pc)), c⟩ := by
  unfold fetch
  rw [run_look_bind]
  exact run_bind_error (run_read_of_refuses h) _

theorem run_fetch_of_not_refuses (h : ¬ c.memory.policy.Refuses c.pc) :
    fetch.run c =
      ⟨[.read c.pc (some (c.memory.peek c.pc))], .ok (c.memory.peek c.pc), c.afterOpcode⟩ := by
  unfold fetch
  rw [run_look_bind]
  exact run_bind_ok (run_read_of_not_refuses h) _

/-- Executes an opcode that was fetched from `origin`. -/
def carryOut (origin : UInt16) (opcode : UInt8) : Action Cpu Fault (UInt8 × Flow) :=
  match Instruction.lookup opcode with
  | none => fail (.illegalOpcode opcode)
  | some ins => do
    let operand ← resolve ins.mode
    let flow ← execute origin ins.operation operand
    proceed origin ins flow
    update fun c => { c with cycles := c.cycles + instructionCycles ins operand }
    return (opcode, flow)

theorem executeNext_eq (origin : UInt16) : executeNext origin = fetch >>= carryOut origin := rfl

theorem allOrNothing_carryOut (origin : UInt16) (opcode : UInt8) :
    AllOrNothing (carryOut origin opcode) := by
  have hproceed (ins : Instruction) (flow : Flow) : Succeeds (proceed origin ins flow) := by
    intro c e h
    cases flow <;> cases h
  unfold carryOut
  split
  · exact .of_still (.fail _)
  · next ins _ =>
    refine .still_bind (still_resolve _) fun operand => ?_
    refine .bind_succeeds (allOrNothing_execute _ _ _) fun flow => ?_
    exact .bind (hproceed ins flow) fun _ => .bind (succeeds_update _) fun _ => succeeds_pure _

/-- An instruction that fails leaves nothing but PC behind, unless a stack check stops it. -/
theorem state_executeNext_of_error {f : Fault}
    (h : ((executeNext c.pc).run c).result = .error f) :
    (f.IsStack → SameOffStack c ((executeNext c.pc).run c).state) ∧
      (¬ f.IsStack → ((executeNext c.pc).run c).state = { c with pc := c.pcBehindFetch }) := by
  rw [executeNext_eq] at h ⊢
  by_cases hr : c.memory.policy.Refuses c.pc
  · have hpc : c.pcBehindFetch = c.pc := by rw [pcBehindFetch, Memory.read_of_refuses hr]
    rw [run_bind_error (run_fetch_of_refuses hr), hpc]
    exact ⟨fun _ => .refl c, fun _ => rfl⟩
  · have hpc : c.pcBehindFetch = c.pc + 1 := by rw [pcBehindFetch, Memory.read_of_not_refuses hr]
    rw [run_bind_ok (run_fetch_of_not_refuses hr)] at h ⊢
    obtain ⟨hstack, hother⟩ := allOrNothing_carryOut c.pc (c.memory.peek c.pc) c.afterOpcode f h
    rw [hpc]
    exact ⟨fun hf => ⟨(hstack hf).a, (hstack hf).x, (hstack hf).y, (hstack hf).cell⟩, hother⟩

/-! ## Steps -/

theorem state_serviceInterrupts_of_no_request (hnmi : c.nmiPending = false)
    (hirq : c.irqPending = false) (origin : UInt16) :
    ((serviceInterrupts origin).run c).state = c := by
  unfold serviceInterrupts
  rw [run_look_bind]
  simp [hnmi, hirq]

/-- **A step that fails undoes its instruction.** The processor is faulted. On a fault of the bus
or an undocumented opcode, an interrupt that was due has been entered, the error names the
instruction, and all is as the entry left it but PC, which is behind the opcode unless the opcode
itself could not be read. On a fault of the stack the registers A, X, Y and the cells outside page
one are as before the step, and the error names the instruction, or the interrupted one if the entry
failed. -/
theorem failed_steps {e : CpuError} (h : c.state = .running)
    (he : (step.run c).result = .error e) :
    let s := (step.run c).state
    let entry := (serviceInterrupts c.pc).run c
    s.state = .faulted ∧
    (c.nmiPending = false → c.irqPending = false → entry.state = c) ∧
    ((∃ b, e.fault = .bus b) ∨ (∃ opcode, e.fault = .illegalOpcode opcode) →
      (∃ kind, entry.result = .ok kind) ∧ e.pc = entry.state.pc ∧
      s = { entry.state with pc := entry.state.pcBehindFetch, state := .faulted }) ∧
    (∀ wrap sp, e.fault = .stack wrap sp →
      SameOffStack c s ∧
      e.pc = match entry.result with
        | .error _ => c.pc
        | .ok _ => entry.state.pc) := by
  intro s entry
  have hfaulted : s.state = .faulted := state_step_of_error h he
  refine ⟨hfaulted, fun hnmi hirq => state_serviceInterrupts_of_no_request hnmi hirq _, ?_⟩
  have hentry := onStack_serviceInterrupts c.pc c
  have hs : s = { (runningStep.run c).state with state := .faulted } := by
    show (step.run c).state = _
    rw [run_step_of_running h, result_faultedOnError] at he
    rw [run_step_of_running h, faultedOnError, he]
  rw [run_step_of_running h, result_faultedOnError] at he
  rcases runningStep_cases c with ⟨events, f, t, hservice, hrun⟩ |
    ⟨events, kind, t, hservice, ⟨events', f, u, hnext, hrun⟩ | ⟨_, _, _, _, _, hrun⟩⟩
  · -- The entry fails, which only a stack check can do.
    have hrunEntry : entry = ⟨events, .error f, t⟩ := hservice
    rw [hservice] at hentry
    obtain ⟨hsame, hstack⟩ := hentry
    rw [hrun] at he hs
    cases he
    rw [hrunEntry, hs]
    refine ⟨fun hf => ?_, fun wrap sp _ => ⟨hsame.trans {}, rfl⟩⟩
    have hno := hstack f rfl
    obtain ⟨b, rfl⟩ | ⟨opcode, rfl⟩ := hf
    · exact hno.elim
    · exact hno.elim
  · have hrunEntry : entry = ⟨events, .ok kind, t⟩ := hservice
    have hfails : ((executeNext t.pc).run t).result = .error f := by rw [hnext]
    obtain ⟨hstack, hother⟩ := state_executeNext_of_error hfails
    rw [hservice] at hentry
    rw [hnext] at hstack hother
    rw [hrun] at he hs
    cases he
    rw [hrunEntry, hs]
    refine ⟨fun hf => ⟨⟨kind, rfl⟩, rfl, ?_⟩, fun wrap sp hf => ⟨?_, rfl⟩⟩
    · have hno : ¬ f.IsStack := by
        obtain ⟨b, rfl⟩ | ⟨opcode, rfl⟩ := hf
        · exact id
        · exact id
      show { u with state := .faulted } = _
      rw [show u = _ from hother hno]
    · have hsame := hentry.1.trans (hstack (by cases hf; trivial))
      exact hsame.trans {}
  · rw [hrun] at he
    cases he

/-- An NMI whose handler starts with `LDA $2000` where no video unit is attached: PC and P are saved,
and of the instruction nothing is left but PC behind its opcode. -/
theorem failed_steps_of_nmi_lda :
    let memory := ((((Memory.blank .fault).setCell 0xFFFB 0x03).setCell 0x0300 0xAD).setCell
      0x0301 0x00).setCell 0x0302 0x20
    let c := { ofMemory memory {} with state := .running, nmiPending := true, pc := 0x1234 }
    let e : CpuError := ⟨0x0300, .bus (.unmapped 0x2000)⟩
    let s := (step.run c).state
    (c.state = .running ∧ (step.run c).result = .error e) ∧
      s.state = .faulted ∧ s.pc = 0x0301 ∧ s.sp = 0xFA ∧ s.cycles = 7 ∧ s.a = 0 := by
  intro memory c e s
  have h : c.state = .running := rfl
  have he : (step.run c).result = .error e := by decide +kernel
  obtain ⟨hfaulted, -, hbus, -⟩ := failed_steps h he
  have hs := (hbus (.inl ⟨_, rfl⟩)).2.2
  refine ⟨⟨h, he⟩, hfaulted, ?_⟩
  show (step.run c).state.pc = _ ∧ (step.run c).state.sp = _ ∧ (step.run c).state.cycles = _ ∧
    (step.run c).state.a = _
  rw [hs]
  decide +kernel

end Cpu

end NesCore
