import NesCore.Proofs.Memory.Mirror

/-!
# Memory as an array of mirror classes

A history is a sequence of bus operations, each of which may fail. `state_perform` takes an
operation apart into its byte accesses and `after_eq_replay` a whole history. From that follows the
law of the address space (`reads_latest_of_class`): a read answers with the latest value that a
write left in the class of the address, whatever else happened before.
-/

namespace NesCore

/-- An operation of the bus. -/
inductive BusOp
  | read (address : UInt16)
  | write (address : UInt16) (value : UInt8)
  | readWord (address : UInt16)
  | writeWord (address : UInt16) (word : UInt16)
  deriving DecidableEq, Repr

namespace BusOp

/-- The operation as an action, its answer left aside. -/
def perform : BusOp → Action Memory BusError Unit
  | read a => do let _ ← Bus.read a
  | write a v => Bus.write a v
  | readWord a => do let _ ← Bus.readWord a
  | writeWord a w => Bus.writeWord a w

/-- The byte accesses of an operation. A word is its low byte and, unless that fails, its high byte
at the following address. -/
def accesses (policy : IoPolicy) : BusOp → List BusAccess
  | read a => [.read a]
  | write a v => [.write a v]
  | readWord a => .read a :: if policy.Refuses a then [] else [.read (a + 1)]
  | writeWord a w =>
    .write a (Word.low w) :: if policy.Refuses a then [] else [.write (a + 1) (Word.high w)]

end BusOp

/-! ## Operations as byte accesses -/

namespace Bus

open NesCore.Action

theorem state_readWord (m : Memory) (a : UInt16) : ((readWord a).run m).state = m := by
  simp only [readWord, state_bind, run_read, run_pure]
  split
  · split <;> rfl
  · rfl

theorem result_readWord (m : Memory) (a : UInt16) :
    ((readWord a).run m).result = do return Word.make (← m.read a) (← m.read (a + 1)) := by
  simp only [readWord, result_bind, run_read, run_pure]
  cases m.read a with
  | error e => rfl
  | ok low =>
    cases m.read (a + 1) with
    | error e => rfl
    | ok high => rfl

theorem state_writeWord (m : Memory) (a w : UInt16) :
    ((writeWord a w).run m).state =
      if m.policy.Refuses a then m
      else (m.written a (Word.low w)).written (a + 1) (Word.high w) := by
  simp only [writeWord, state_bind, result_write, state_write]
  split_ifs with h
  · exact Memory.written_of_refuses _ h
  · rfl

theorem result_writeWord (m : Memory) (a w : UInt16) :
    ((writeWord a w).run m).result =
      if m.policy.Refuses a then .error (.unmapped a)
      else if m.policy.Refuses (a + 1) then .error (.unmapped (a + 1))
      else .ok () := by
  simp only [writeWord, result_bind, result_write, state_write, Memory.policy_written]
  split_ifs <;> rfl

end Bus

/-- An operation leaves what its byte accesses leave. -/
theorem BusOp.state_perform (op : BusOp) (m : Memory) :
    (op.perform.run m).state = m.replay (op.accesses m.policy) := by
  cases op with
  | read a =>
    simp only [perform, Action.state_bind, Bus.run_read]
    split <;> rfl
  | write a v => exact Bus.state_write m a v
  | readWord a =>
    have hm : ((Bus.readWord a).run m).state = m := Bus.state_readWord m a
    have hreplay : m.replay ((readWord a).accesses m.policy) = m := by
      simp only [accesses]
      split_ifs <;> rfl
    rw [hreplay]
    simp only [perform, Action.state_bind, hm]
    split <;> rfl
  | writeWord a w =>
    simp only [perform, Bus.state_writeWord, accesses]
    split_ifs with h
    · exact (Memory.written_of_refuses _ h).symm
    · rfl

/-! ## Histories -/

namespace Memory

/-- The memory after a history. An operation that fails does not end it. -/
def after (m : Memory) (history : List BusOp) : Memory :=
  history.foldl (fun m op => (op.perform.run m).state) m

/-- The latest value that a write of the history left in the class of an address, or what the class
held before. -/
def latest (m : Memory) (history : List BusOp) (b : UInt16) : UInt8 :=
  ((history.flatMap (BusOp.accesses m.policy)).filterMap
    (BusAccess.storedIn? m (m.policy.fold b))).getLast?.getD (m.cell (m.policy.fold b))

theorem after_eq_replay (m : Memory) (history : List BusOp) :
    m.after history = m.replay (history.flatMap (BusOp.accesses m.policy)) := by
  induction history generalizing m with
  | nil => rfl
  | cons op rest ih =>
    show (op.perform.run m).state.after rest = _
    rw [ih, BusOp.state_perform, policy_replay, List.flatMap_cons, replay_append]

theorem policy_after (m : Memory) (history : List BusOp) : (m.after history).policy = m.policy := by
  rw [after_eq_replay, policy_replay]

/-- What a write leaves, a history that starts there keeps. -/
theorem after_induction {P : Memory → Prop} (hw : ∀ m a v, P m → P (m.written a v)) {m : Memory}
    (hm : P m) (history : List BusOp) : P (m.after history) := by
  rw [after_eq_replay]
  exact replay_induction hw hm _

theorem read_after (m : Memory) (history : List BusOp) {b : UInt16}
    (hr : ¬ m.policy.Refuses b) (hs : ¬ m.policy.Swallows b) :
    (m.after history).read b = .ok (m.latest history b) := by
  rw [read_eq, policy_after, if_neg hr, if_neg hs, after_eq_replay, cell_replay]
  rfl

/-- **The law of the address space.** After any history an address that is neither swallowed nor
refused reads as the latest value left in its class, a swallowed one reads as 0, and a refused one
fails every access with its own address and without effect; other writes succeed. Word operations
are two byte operations, and peeking is reading with a refusal taken as 0. -/
theorem reads_latest_of_class (m : Memory) (history : List BusOp) :
    let now := m.after history
    (∀ b, ¬ m.policy.Refuses b → ¬ m.policy.Swallows b →
      now.read b = .ok (m.latest history b)) ∧
    (∀ b, m.policy.Swallows b → now.read b = .ok 0) ∧
    (∀ a, m.policy.Refuses a →
      (Bus.read a).run now = ⟨[.read a none], .error (.unmapped a), now⟩ ∧
      ∀ v, (Bus.write a v).run now = ⟨[.write a v false], .error (.unmapped a), now⟩) ∧
    (∀ a v, ¬ m.policy.Refuses a → ((Bus.write a v).run now).result = .ok ()) ∧
    (∀ a, ((Bus.readWord a).run now).result =
      do return Word.make (← now.read a) (← now.read (a + 1))) ∧
    (∀ a w, ((Bus.writeWord a w).run now).result =
      if m.policy.Refuses a then .error (.unmapped a)
      else if m.policy.Refuses (a + 1) then .error (.unmapped (a + 1))
      else .ok ()) ∧
    (∀ b, now.peek b = match now.read b with
      | .ok v => v
      | .error _ => 0) := by
  intro now
  have hp : now.policy = m.policy := policy_after m history
  refine ⟨fun b hr hs => read_after m history hr hs, fun b hs => ?_, fun a hr => ?_,
    fun a v hr => ?_, fun a => Bus.result_readWord now a, fun a w => ?_,
    fun b => peek_eq_read now b⟩
  · have hr : ¬ m.policy.Refuses b := fun hr => by
      have := hs.1.symm.trans hr.1
      exact absurd this (by decide)
    rw [read_eq, hp, if_neg hr, if_pos hs]
  · rw [← hp] at hr
    exact ⟨Bus.run_read_of_refuses hr, fun v => Bus.run_write_of_refuses hr⟩
  · rw [Bus.result_write, hp, if_neg hr]
  · rw [Bus.result_writeWord, hp]

/-- A word write that is refused half way has left its low byte, in all mirrors. -/
example : ((blank .fault).after [.writeWord 0x1FFF 0x1234]).read 0x07FF = .ok 0x34 := by
  decide +kernel

end Memory

end NesCore
