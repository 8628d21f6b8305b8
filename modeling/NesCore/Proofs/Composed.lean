import NesCore.Cpu.Step
import NesCore.Proofs.Course.Demand

/-!
# What the processor's actions are composed of

The parts of a step are put together from bus accesses, stack checks and changes of registers that
look neither at memory nor at the stack check. `Composed` is the closure of these primitives under
sequencing; what holds of the primitives and passes through a sequence holds of every part of a
step, by one induction on it. `composed_serviceInterrupts`, `composed_fetch`, `composed_resolve`
and `composed_execute` are its uses. Its two indices tell apart the actions that never check the
stack and those that never touch the ledger of cycles and waiting interrupts.
-/

namespace NesCore

/-- A push or a pull that wraps the stack pointer. -/
structure Wrapping where
  /-- The address of the instruction. -/
  origin : UInt16
  wrap : StackWrap
  /-- SP before the push or pull. -/
  sp : UInt8
  deriving DecidableEq, Repr

/-- The wrap that a notice reports. -/
def Notice.wrapping? : Notice → Option Wrapping
  | .stackWrapped wrap pc sp => some ⟨pc, wrap, sp⟩
  | _ => none

/-- The entry of an interrupt that a notice reports. -/
def Notice.entry? : Notice → Option Interrupt
  | .interruptTaken kind _ => some kind
  | _ => none

/-- The operation pushes or pulls. -/
def Operation.usesStack : Operation → Bool
  | .pushAccumulator | .pushStatus | .pullAccumulator | .pullStatus | .call | .returnFromCall
  | .returnFromInterrupt | .brk => true
  | _ => false

/-- The operation may take a branch, which costs cycles of its own. -/
def Operation.branches : Operation → Bool
  | .branch .. => true
  | _ => false

/-- What a run keeps count of. -/
structure Ledger where
  cycles : UInt64
  nmiPending : Bool
  irqPending : Bool
  deriving DecidableEq, Repr

namespace Cpu

open NesCore.Action

variable {α β : Type} {stack counts : Bool}

/-- The ledger of a processor. -/
def ledger (c : Cpu) : Ledger := ⟨c.cycles, c.nmiPending, c.irqPending⟩

/-! ## Surroundings -/

/-- The processor in other surroundings: with another memory and another stack check. -/
def around (c : Cpu) (m : Memory) (check : StackCheck) : Cpu :=
  { c with memory := m, config := { c.config with stackCheck := check } }

/-- A change of registers and, if `counts` holds, of the ledger, which does not depend on the
surroundings. -/
structure IsLocal (counts : Bool) (g : Cpu → Cpu) : Prop where
  around : ∀ c m check, g (c.around m check) = (g c).around m check := by intros; rfl
  config : ∀ c, (g c).config = c.config := by intros; rfl
  state : ∀ c, (g c).state = c.state := by intros; rfl
  ledger : counts = false → ∀ c, (g c).ledger = c.ledger := by intros; rfl

/-- A local change does not touch memory, for it would do so in other surroundings. -/
theorem IsLocal.memory {g : Cpu → Cpu} (hg : IsLocal counts g) (c : Cpu) :
    (g c).memory = c.memory := by
  have h : g c = (g c).around c.memory c.config.stackCheck :=
    hg.around c c.memory c.config.stackCheck
  rw [h]
  rfl

/-! ## Composition -/

/-- The action is composed of bus accesses, local changes and, if `stack` holds, stack checks. It
leaves the ledger alone unless `counts` holds. -/
inductive Composed (stack counts : Bool) : {α : Type} → Action Cpu Fault α → Prop
  | pure {α : Type} (a : α) : Composed stack counts (pure a)
  | fail {α : Type} (e : Fault) : Composed stack counts (fail e : Action Cpu Fault α)
  | note {n : Notice} (h : n.wrapping? = none) (hl : counts = false → n.entry? = none) :
    Composed stack counts (note n)
  | update {g : Cpu → Cpu} (h : IsLocal counts g) : Composed stack counts (update g)
  | read (a : UInt16) : Composed stack counts (read a)
  | write (a : UInt16) (v : UInt8) : Composed stack counts (write a v)
  | checkWrap (h : stack = true) (origin : UInt16) (wrap : StackWrap) :
    Composed stack counts (checkWrap origin wrap)
  /-- What is looked at does not depend on the surroundings as far as the rest uses it. -/
  | look_bind {α β : Type} {view : Cpu → β} {f : β → Action Cpu Fault α}
    (h : ∀ c m check, f (view (c.around m check)) = f (view c))
    (hf : ∀ c, Composed stack counts (f (view c))) : Composed stack counts (look view >>= f)
  | bind {α β : Type} {x : Action Cpu Fault β} {f : β → Action Cpu Fault α}
    (hx : Composed stack counts x) (hf : ∀ b, Composed stack counts (f b)) :
    Composed stack counts (x >>= f)

namespace Composed

theorem look {view : Cpu → α} (h : ∀ c m check, view (c.around m check) = view c) :
    Composed stack counts (look view : Action Cpu Fault α) := by
  rw [← bind_pure (Action.look view)]
  exact .look_bind (fun c m check => by rw [h]) fun _ => .pure _

theorem ite {p : Prop} [Decidable p] {x y : Action Cpu Fault α} (hx : Composed stack counts x)
    (hy : Composed stack counts y) : Composed stack counts (if p then x else y) := by
  split
  · exact hx
  · exact hy

end Composed

/-! ## Local changes -/

theorem isLocal_setRegister (register : Register) (v : UInt8) :
    IsLocal counts fun c => c.setRegister register v := {}

theorem isLocal_setPc (pc : UInt16) : IsLocal counts fun c => { c with pc := pc } := {}

/-! ## Memory and stack -/

theorem composed_readWord (a : UInt16) : Composed stack counts (readWord a) := by
  rw [readWord_eq]
  exact .bind (.read _) fun _ => .bind (.read _) fun _ => .pure _

theorem composed_push (origin : UInt16) (v : UInt8) : Composed true counts (push origin v) := by
  have hrest (sp : UInt8) : Composed true counts (do
      write (stackAddress sp) v
      update fun c => c.setRegister .sp (sp - 1)) :=
    .bind (.write _ _) fun _ => .update (isLocal_setRegister _ _)
  unfold push
  exact .bind (.look fun _ _ _ => rfl) fun sp =>
    .ite (.bind (.checkWrap rfl _ _) fun _ => hrest sp) (hrest sp)

theorem composed_pull (origin : UInt16) : Composed true counts (pull origin) := by
  have hrest (sp : UInt8) : Composed true counts (do
      update fun c => c.setRegister .sp (sp + 1)
      read (stackAddress (sp + 1))) :=
    .bind (.update (isLocal_setRegister _ _)) fun _ => .read _
  unfold pull
  exact .bind (.look fun _ _ _ => rfl) fun sp =>
    .ite (.bind (.checkWrap rfl _ _) fun _ => hrest sp) (hrest sp)

theorem composed_pushWord (origin w : UInt16) : Composed true counts (pushWord origin w) :=
  .bind (composed_push _ _) fun _ => composed_push _ _

theorem composed_pullWord (origin : UInt16) : Composed true counts (pullWord origin) :=
  .bind (composed_pull _) fun _ => .bind (composed_pull _) fun _ => .pure _

/-! ## Operands -/

theorem composed_readZeroPageWord (pointer : UInt8) :
    Composed stack counts (readZeroPageWord pointer) :=
  .bind (.read _) fun _ => .bind (.read _) fun _ => .pure _

theorem composed_readWordInPage (pointer : UInt16) :
    Composed stack counts (readWordInPage pointer) :=
  .bind (.read _) fun _ => .bind (.read _) fun _ => .pure _

theorem composed_resolve (mode : Mode) : Composed stack counts (resolve mode) := by
  unfold resolve
  refine .look_bind (fun _ _ _ => by cases mode <;> rfl) fun c => ?_
  cases mode with
  | implied | accumulator | immediate => exact .pure _
  | zeroPage | zeroPageX | zeroPageY | relative => exact .bind (.read _) fun _ => .pure _
  | absolute | absoluteX | absoluteY => exact .bind (composed_readWord _) fun _ => .pure _
  | indirect =>
    exact .bind (composed_readWord _) fun w => .bind (composed_readWordInPage w) fun _ => .pure _
  | indirectX | indirectY =>
    exact .bind (.read _) fun b => .bind (composed_readZeroPageWord _) fun _ => .pure _

theorem composed_readOperand (operand : Operand) : Composed stack counts (readOperand operand) := by
  unfold readOperand
  split
  · exact .look fun _ _ _ => rfl
  · exact .read _
  · exact .fail _

theorem composed_writeOperand (operand : Operand) (v : UInt8) :
    Composed stack counts (writeOperand operand v) := by
  unfold writeOperand
  split
  · exact .update (isLocal_setRegister _ _)
  · exact .fail _
  · exact .write _ _
  · exact .fail _

theorem composed_operandAddress (operand : Operand) :
    Composed stack counts (operandAddress operand) := by
  unfold operandAddress
  split
  · exact .pure _
  · exact .fail _

/-! ## Operations -/

theorem composed_setResult (register : Register) (v : UInt8) :
    Composed stack counts (setResult register v) :=
  .update {}

theorem composed_pullStatusByte (origin : UInt16) : Composed true counts (pullStatusByte origin) :=
  .bind (composed_pull _) fun _ => .update {}

theorem composed_takeBranch (operand : Operand) : Composed stack true (takeBranch operand) :=
  .bind (composed_operandAddress _) fun _ =>
    .bind (.update { ledger := nofun }) fun _ => .pure _

theorem composed_enterHandler (vector : UInt16) : Composed stack counts (enterHandler vector) :=
  .bind (.update {}) fun _ =>
    .bind (composed_readWord _) fun w => .update (isLocal_setPc w)

theorem composed_softwareInterrupt (origin : UInt16) :
    Composed true counts (softwareInterrupt origin) :=
  .bind (composed_pushWord _ _) fun _ => .look_bind (fun _ _ _ => rfl) fun _ =>
    .bind (composed_push _ _) fun _ => .bind (composed_enterHandler _) fun _ => .pure _

theorem composed_execute (origin : UInt16) (operation : Operation) (operand : Operand) :
    Composed operation.usesStack operation.branches (execute origin operation operand) := by
  unfold execute
  refine .look_bind (fun _ _ _ => ?view) fun c => ?rest
  case view =>
    cases operation with
    | transfer source target => cases target <;> rfl
    | _ => rfl
  cases operation with
  | load | logic =>
    exact .bind (composed_readOperand _) fun _ => .bind (composed_setResult _ _) fun _ => .pure _
  | store => exact .bind (composed_writeOperand _ _) fun _ => .pure _
  | transfer source target =>
    cases target with
    | sp => exact .bind (.update {}) fun _ => .pure _
    | a | x | y => exact .bind (composed_setResult _ _) fun _ => .pure _
  | pushAccumulator | pushStatus => exact .bind (composed_push _ _) fun _ => .pure _
  | pullAccumulator =>
    exact .bind (composed_pull _) fun _ => .bind (composed_setResult _ _) fun _ => .pure _
  | pullStatus => exact .bind (composed_pullStatusByte _) fun _ => .pure _
  | add | subtract | compare | bitTest =>
    exact .bind (composed_readOperand _) fun _ =>
      .bind (.update {}) fun _ => .pure _
  | shift | stepOperand =>
    exact .bind (composed_readOperand _) fun _ => .bind (composed_writeOperand _ _) fun _ =>
      .bind (.update {}) fun _ => .pure _
  | stepRegister => exact .bind (composed_setResult _ _) fun _ => .pure _
  | branch => exact .ite (composed_takeBranch _) (.pure _)
  | jump =>
    exact .bind (composed_operandAddress _) fun a => .bind (.update (isLocal_setPc a)) fun _ =>
      .pure _
  | call =>
    exact .bind (composed_operandAddress _) fun a => .bind (composed_pushWord _ _) fun _ =>
      .bind (.update (isLocal_setPc a)) fun _ => .pure _
  | returnFromCall =>
    exact .bind (composed_pullWord _) fun w => .bind (.update (isLocal_setPc (w + 1))) fun _ =>
      .pure _
  | returnFromInterrupt =>
    exact .bind (composed_pullStatusByte _) fun _ => .bind (composed_pullWord _) fun w =>
      .bind (.update (isLocal_setPc w)) fun _ => .pure _
  | brk =>
    dsimp only [id]
    cases c.config.brk with
    | halt => exact .pure _
    | interrupt => exact composed_softwareInterrupt _
  | setFlag =>
    exact .bind (.update {}) fun _ => .pure _
  | nop => exact .pure _

/-! ## Steps -/

theorem composed_enterInterrupt (origin : UInt16) (kind : Interrupt) :
    Composed true true (enterInterrupt origin kind) :=
  .look_bind (fun _ _ _ => rfl) fun _ => .bind (composed_pushWord _ _) fun _ =>
    .bind (composed_push _ _) fun _ => .bind (composed_enterHandler _) fun _ =>
      .bind (.update { ledger := nofun }) fun _ =>
        .look_bind (fun _ _ _ => rfl) fun _ => .note rfl nofun

theorem composed_serviceInterrupts (origin : UInt16) :
    Composed true true (serviceInterrupts origin) := by
  unfold serviceInterrupts
  refine .look_bind (fun _ _ _ => rfl) fun c => .ite ?nmi (.ite ?irq (.pure _))
  case nmi =>
    exact .bind (.update { ledger := nofun }) fun _ =>
      .bind (composed_enterInterrupt _ _) fun _ => .pure _
  case irq =>
    refine .bind (.update { ledger := nofun }) fun _ =>
      .ite ?masked ?entered
    case masked => exact .bind (.note rfl nofun) fun _ => .pure _
    case entered => exact .bind (composed_enterInterrupt _ _) fun _ => .pure _

theorem composed_fetch : Composed stack counts fetch :=
  .bind (.look fun _ _ _ => rfl) fun pc => .bind (.read _) fun _ =>
    .bind (.update (isLocal_setPc (pc + 1))) fun _ => .pure _

/-! ## What no part changes -/

/-- Run state and settings stay, whether the action succeeds or fails. -/
theorem Composed.keeps {x : Action Cpu Fault α} (hx : Composed stack counts x) (c : Cpu) :
    (x.run c).state.state = c.state ∧ (x.run c).state.config = c.config := by
  induction hx generalizing c with
  | pure | fail | note | read | write => exact ⟨rfl, rfl⟩
  | update h => exact ⟨h.state c, h.config c⟩
  | checkWrap h origin wrap =>
    simp only [Cpu.checkWrap, state_bind, run_look, id]
    cases c.config.stackCheck <;> exact ⟨rfl, rfl⟩
  | look_bind h hf ih => exact ih c c
  | bind hx hf ihx ihf =>
    rw [state_bind]
    split
    · next b hb =>
      obtain ⟨hstate, hconfig⟩ := ihf b _
      exact ⟨hstate.trans (ihx c).1, hconfig.trans (ihx c).2⟩
    · exact ihx c

end Cpu

end NesCore
