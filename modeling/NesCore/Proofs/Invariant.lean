import NesCore.Cpu.Run
import NesCore.Proofs.Action

/-!
# What actions keep

An action keeps a property of the state if it leads from states that have it to states that have it,
whether it succeeds or fails. Sequences keep what their parts keep (`Keeps.bind`), and a run of any
length keeps what its steps and its host keep (`keeps_runFor`). An action that is still keeps every
property; finding and reading an operand is (`still_resolve`, `still_readOperand`).
-/

namespace NesCore

namespace Action

variable {σ τ ε ε₁ α β : Type} {P : σ → Prop}

/-- The action does not lead out of the property. -/
def Keeps (P : σ → Prop) (x : Action σ ε α) : Prop := ∀ s, P s → P (x.run s).state

namespace Keeps

theorem pure (a : α) : Keeps P (pure a : Action σ ε α) := fun _ h => h

theorem fail (e : ε) : Keeps P (fail e : Action σ ε α) := fun _ h => h

theorem look (view : σ → α) : Keeps P (look view : Action σ ε α) := fun _ h => h

theorem note (n : Notice) : Keeps P (note n : Action σ ε Unit) := fun _ h => h

theorem update {f : σ → σ} (hf : ∀ s, P s → P (f s)) :
    Keeps P (update f : Action σ ε Unit) := hf

theorem bind {x : Action σ ε α} {f : α → Action σ ε β} (hx : Keeps P x)
    (hf : ∀ a, Keeps P (f a)) : Keeps P (x >>= f) := by
  intro s h
  rw [state_bind]
  cases (x.run s).result with
  | error e => exact hx s h
  | ok a => exact hf a _ (hx s h)

theorem ite {p : Prop} [Decidable p] {x y : Action σ ε α} (hx : Keeps P x) (hy : Keeps P y) :
    Keeps P (if p then x else y) := by
  split
  · exact hx
  · exact hy

theorem mapError {x : Action σ ε α} (hx : Keeps P x) (f : ε → ε₁) : Keeps P (x.mapError f) := hx

theorem onPart {x : Action σ ε α} (hx : Keeps P x) {part : τ → σ} {put : τ → σ → τ}
    (hput : ∀ t s, part (put t s) = s) : Keeps (fun t => P (part t)) (x.onPart part put) := by
  intro t h
  show P (part (put t _))
  rw [hput]
  exact hx _ h

end Keeps

/-- The action leaves the state as it is, however it ends. -/
def Still (x : Action σ ε α) : Prop := ∀ s, (x.run s).state = s

namespace Still

theorem keeps {x : Action σ ε α} (hx : Still x) : Keeps P x := by
  intro s h
  rw [hx s]
  exact h

theorem pure (a : α) : Still (pure a : Action σ ε α) := fun _ => rfl

theorem fail (e : ε) : Still (fail e : Action σ ε α) := fun _ => rfl

theorem look (view : σ → α) : Still (look view : Action σ ε α) := fun _ => rfl

theorem bind {x : Action σ ε α} {f : α → Action σ ε β} (hx : Still x) (hf : ∀ a, Still (f a)) :
    Still (x >>= f) := by
  intro s
  rw [state_bind]
  cases (x.run s).result with
  | error e => exact hx s
  | ok a => exact (hf a _).trans (hx s)

end Still

end Action

namespace Cpu

open NesCore.Action

variable {η : Type} {host : Host η} {P : Cpu → Prop}

/-! ## Reading -/

theorem still_read (a : UInt16) : Still (read a) := fun _ => rfl

theorem still_readWord (a : UInt16) : Still (readWord a) := by
  intro c
  have hbus : Still (Bus.readWord a) :=
    .bind (fun _ => rfl) fun _ => .bind (fun _ => rfl) fun _ => .pure _
  show { c with memory := ((Bus.readWord a).run c.memory).state } = c
  rw [hbus c.memory]

theorem still_resolve (mode : Mode) : Still (resolve mode) := by
  have hzero (b : UInt8) : Still (readZeroPageWord b) :=
    .bind (still_read _) fun _ => .bind (still_read _) fun _ => .pure _
  have hpage (a : UInt16) : Still (readWordInPage a) :=
    .bind (still_read _) fun _ => .bind (still_read _) fun _ => .pure _
  unfold resolve
  refine .bind (.look _) fun c => ?_
  cases mode with
  | implied | accumulator | immediate => exact .pure _
  | zeroPage | zeroPageX | zeroPageY | relative => exact .bind (still_read _) fun _ => .pure _
  | absolute | absoluteX | absoluteY => exact .bind (still_readWord _) fun _ => .pure _
  | indirect => exact .bind (still_readWord _) fun w => .bind (hpage w) fun _ => .pure _
  | indirectX | indirectY => exact .bind (still_read _) fun b => .bind (hzero _) fun _ => .pure _

theorem still_readOperand (operand : Operand) : Still (readOperand operand) := by
  unfold readOperand
  split
  · exact .look _
  · exact still_read _
  · exact .fail _

theorem still_operandAddress (operand : Operand) : Still (operandAddress operand) := by
  unfold operandAddress
  split
  · exact .pure _
  · exact .fail _

/-! ## Runs -/

section Runs

variable (hstep : Keeps P step)
  (hhost : ∀ h tick c, P c → P { c with memory := (host h tick c.memory).memory })

include hstep hhost

theorem keeps_advance : Keeps (fun s => P s.cpu) (advance host) :=
  .bind (hstep.onPart fun _ _ => rfl) fun outcome s h => hhost s.host (s.cpu.tick outcome) s.cpu h

/-- The run lemma: what a step and the host keep, a run of any length keeps. -/
theorem keeps_runFor (n : Nat) : Keeps (fun s => P s.cpu) (runFor host n) := by
  induction n with
  | zero => exact .pure none
  | succ n ih =>
    refine .bind (keeps_advance hstep hhost) fun reason => ?_
    cases reason with
    | none => exact ih
    | some reason => exact .pure _

end Runs

end Cpu

end NesCore
