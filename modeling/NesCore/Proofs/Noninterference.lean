import Mathlib.Data.List.Forall2
import NesCore.Proofs.Comparison
import NesCore.Proofs.Lifecycle
import NesCore.Proofs.Memory.Unreachable
import NesCore.Proofs.Recorded
import NesCore.TraceLine

/-!
# Storage that nobody can see

Cells to which no address leads are out of reach of the processor and of its host: two processors
whose memories differ in such cells only give the same answers to everything that the host can call
(`HostCall`), and leave these cells as they were. For the accesses this is `Memory.Oblivious`, for
the steps the comparison `reachable`; trace lines are made of peeks (`TraceLine.line_congr`).

Main statement: `unreachable_storage_is_inert`.
-/

namespace NesCore

/-! ## Trace lines -/

/-- A trace line depends on memory by what it peeks at. -/
theorem TraceLine.line_congr {m n : Memory} (h : ∀ a, n.peek a = m.peek a) (r : Registers)
    (cycles : UInt64) (coloured : Bool) : line n r cycles coloured = line m r cycles coloured := by
  have hins (pc : UInt16) : n.instructionAt pc = m.instructionAt pc := by
    unfold Memory.instructionAt
    rw [h]
  have hcolour : colourAt n r.pc = colourAt m r.pc := by
    unfold colourAt
    rw [hins]
  have hbytes : n.bytesAt r.pc = m.bytesAt r.pc := by
    simp only [Memory.bytesAt, Memory.lengthAt, hins, h]
  have htext : n.disassemble r.pc = m.disassemble r.pc := by
    simp only [Memory.disassemble, hins, h]
  unfold line
  rw [hcolour, hbytes, htext]

/-! ## What a host can call -/

/-- A call of the host, on the processor or past it on the bus. -/
inductive HostCall
  | reset
  | step
  | triggerNmi
  | triggerIrq
  | setRegisters (r : Registers)
  | read (address : UInt16)
  | write (address : UInt16) (value : UInt8)
  | readWord (address : UInt16)
  | writeWord (address : UInt16) (word : UInt16)
  | peek (address : UInt16)
  | trace
  deriving DecidableEq, Repr

/-- What a call answers. -/
inductive Answer
  | done
  | stepped (outcome : StepOutcome)
  | byte (value : UInt8)
  | word (word : UInt16)
  | line (text : List Char)
  deriving DecidableEq, Repr

/-- Why a call fails. -/
inductive HostError
  | cpu (source : CpuError)
  | bus (source : BusError)
  deriving DecidableEq, Repr

namespace Cpu

open NesCore.Action

variable {α : Type} {c d : Cpu}

/-- A bus access of the host. -/
def hostBus (x : Action Memory BusError α) : Action Cpu HostError α :=
  (x.onPart Cpu.memory fun c m => { c with memory := m }).mapError .bus

end Cpu

open NesCore.Action Cpu in
/-- A call as an action. -/
def HostCall.action : HostCall → Action Cpu HostError Answer
  | reset => do
    Cpu.reset.mapError .cpu
    return .done
  | step => do return .stepped (← Cpu.step.mapError .cpu)
  | triggerNmi => do
    update Cpu.triggerNmi
    return .done
  | triggerIrq => do
    update Cpu.triggerIrq
    return .done
  | setRegisters r => do
    update fun c => c.setRegisters r
    return .done
  | read a => do return .byte (← hostBus (Bus.read a))
  | write a v => do
    hostBus (Bus.write a v)
    return .done
  | readWord a => do return .word (← hostBus (Bus.readWord a))
  | writeWord a w => do
    hostBus (Bus.writeWord a w)
    return .done
  | peek a => look fun c => .byte (c.memory.peek a)
  | trace => look fun c => .line c.traceLine

namespace Cpu

open NesCore.Action

variable {α : Type} {c d : Cpu}

/-- What a sequence of calls comes to. A call that fails does not end it. -/
def dialogue (c : Cpu) : List HostCall → List (Outcome Cpu HostError Answer)
  | [] => []
  | call :: rest => call.action.run c :: (call.action.run c).state.dialogue rest

/-! ## Processors that look the same -/

/-- The processors differ in nothing but unreachable cells of their memories. -/
structure SameVisible (c d : Cpu) : Prop where
  registers : d.toRegisters = c.toRegisters
  cycles : d.cycles = c.cycles
  config : d.config = c.config
  state : d.state = c.state
  nmiPending : d.nmiPending = c.nmiPending
  irqPending : d.irqPending = c.irqPending
  memory : c.memory.SameReachable d.memory

theorem SameVisible.ofMemory {m n : Memory} (h : m.SameReachable n) (config : CpuConfig) :
    (ofMemory m config).SameVisible (Cpu.ofMemory n config) := ⟨rfl, rfl, rfl, rfl, rfl, rfl, h⟩

/-- Processors over memories that differ in unreachable cells only. -/
def reachable : Comparison where
  Related m check m' check' := m.SameReachable m' ∧ check' = check
  Stops _ := False
  shows _ := true

theorem rel_reachable_iff : reachable.Rel c d ↔ c.SameVisible d := by
  constructor
  · rintro ⟨m, check, rfl, hmemory, rfl⟩
    exact ⟨rfl, rfl, rfl, rfl, rfl, rfl, hmemory⟩
  · rintro ⟨hregisters, hcycles, hconfig, hstate, hnmi, hirq, hmemory⟩
    refine ⟨d.memory, c.config.stackCheck, ?_, hmemory, rfl⟩
    cases c
    cases d
    cases hregisters
    cases hcycles
    cases hconfig
    cases hstate
    cases hnmi
    cases hirq
    rfl

/-- Nothing ends the comparison: what matches agrees, event by event. -/
theorem agree_of_matches_reachable {ε : Type} {x : Action Cpu ε α}
    (h : reachable.Matches (fun _ => False) x c d) :
    (x.run d).result = (x.run c).result ∧ (x.run d).events = (x.run c).events ∧
      (x.run c).state.SameVisible (x.run d).state := by
  rcases h with ⟨e, he, -⟩ | hagree
  · exact he.elim
  · exact ⟨hagree.result, hagree.events_eq fun _ => rfl, rel_reachable_iff.1 hagree.state⟩

/-! ## Accesses and steps -/

theorem matches_onPart (h : reachable.Rel c d) {x : Action Memory BusError α}
    (hx : Memory.Oblivious x) :
    reachable.Matches (fun _ => False)
      (x.onPart Cpu.memory fun c m => { c with memory := m }) c d := by
  obtain ⟨m, check, rfl, hmemory, rfl⟩ := h
  refine .inr ⟨hx.result hmemory, ⟨_, _, rfl, hx.reachable hmemory, rfl⟩, ?_⟩
  exact congrArg _ (hx.events hmemory)

theorem matches_hostBus (h : reachable.Rel c d) {x : Action Memory BusError α}
    (hx : Memory.Oblivious x) : reachable.Matches (fun _ => False) (hostBus x) c d :=
  (matches_onPart h hx).mapError fun _ => id

theorem isSound_reachable : reachable.IsSound where
  read a h := (matches_onPart h (.read a)).mapError fun _ => id
  write a v h := (matches_onPart h (.write a v)).mapError fun _ => id
  checkWrap origin wrap h :=
    Comparison.matches_checkWrap h (by rw [(rel_reachable_iff.1 h).config]) origin wrap

theorem matches_reset (h : reachable.Rel c d) :
    reachable.Matches (fun _ => False) reset c d := by
  have hword {s t : Cpu} (hst : reachable.Rel s t) :
      reachable.Matches (fun _ => False) (readWord resetVector) s t :=
    isSound_reachable.matches_of_composed (@composed_readWord false false _) hst
  have hsp {s t : Cpu} (hst : reachable.Rel s t) : t.sp = s.sp := by
    obtain ⟨m, check, rfl, -⟩ := hst
    rfl
  refine .bind (.update h (fun _ _ => rfl) rfl rfl) fun _ s t hst => ?_
  refine .bind ((hword hst).mapError fun _ => id) fun _ s t hst => ?_
  refine .bind (.update hst (fun _ _ => rfl) rfl rfl) fun _ s t hst => ?_
  exact .look_bind (by rw [hsp hst]) (.note hst _)

theorem matches_step_reachable (h : reachable.Rel c d) :
    reachable.Matches (fun _ => False) step c d :=
  isSound_reachable.matches_step h fun _ => (rel_reachable_iff.1 h).memory.peek c.pc

/-! ## Calls -/

theorem matches_call (call : HostCall) (h : reachable.Rel c d) :
    reachable.Matches (fun _ => False) call.action c d := by
  have hmemory := (rel_reachable_iff.1 h).memory
  cases call with
  | reset => exact .bind ((matches_reset h).mapError fun _ => id) fun _ _ _ hst => .pure hst _
  | step =>
    exact .bind ((matches_step_reachable h).mapError fun _ => id) fun _ _ _ hst => .pure hst _
  | triggerNmi | triggerIrq | setRegisters r =>
    exact .bind (.update h (fun _ _ => rfl) rfl rfl) fun _ _ _ hst => .pure hst _
  | read a => exact .bind (matches_hostBus h (.read a)) fun _ _ _ hst => .pure hst _
  | write a v => exact .bind (matches_hostBus h (.write a v)) fun _ _ _ hst => .pure hst _
  | readWord a => exact .bind (matches_hostBus h (.readWord a)) fun _ _ _ hst => .pure hst _
  | writeWord a w => exact .bind (matches_hostBus h (.writeWord a w)) fun _ _ _ hst => .pure hst _
  | peek a =>
    refine .inr ⟨?_, h, rfl⟩
    simp only [HostCall.action, run_look, hmemory.peek]
  | trace =>
    have hline : d.traceLine = c.traceLine := by
      unfold traceLine
      rw [(rel_reachable_iff.1 h).registers, (rel_reachable_iff.1 h).cycles]
      exact TraceLine.line_congr hmemory.peek _ _ _
    refine .inr ⟨?_, h, rfl⟩
    simp only [HostCall.action, run_look, hline]

/-- No call touches an unreachable cell. -/
theorem sameUnreachable_call (call : HostCall) (c : Cpu) :
    c.memory.SameUnreachable (call.action.run c).state.memory := by
  have hrefl := Memory.SameUnreachable.refl c.memory
  have hstate {α : Type} {x : Action Cpu HostError α} (f : α → Answer) :
      ((x >>= fun a => pure (f a)).run c).state = (x.run c).state := by
    rw [state_bind]
    split <;> rfl
  cases call with
  | reset =>
    rw [HostCall.action, hstate]
    exact recorded_reset.memory_induction (fun _ a v h => h.written a v) hrefl
  | step =>
    rw [HostCall.action, hstate]
    exact recorded_step.memory_induction (fun _ a v h => h.written a v) hrefl
  | triggerNmi | triggerIrq | setRegisters r | peek a | trace => exact hrefl
  | read a =>
    rw [HostCall.action, hstate]
    exact (Memory.Oblivious.read a).unreachable c.memory
  | write a v =>
    rw [HostCall.action, hstate]
    exact (Memory.Oblivious.write a v).unreachable c.memory
  | readWord a =>
    rw [HostCall.action, hstate]
    exact (Memory.Oblivious.readWord a).unreachable c.memory
  | writeWord a w =>
    rw [HostCall.action, hstate]
    exact (Memory.Oblivious.writeWord a w).unreachable c.memory

/-! ## Dialogues -/

/-- Processors that look the same answer a sequence of calls in the same way. -/
theorem SameVisible.dialogue (h : c.SameVisible d) (calls : List HostCall) :
    List.Forall₂ (fun o p => p.result = o.result ∧ p.events = o.events ∧
      o.state.SameVisible p.state) (c.dialogue calls) (d.dialogue calls) := by
  induction calls generalizing c d with
  | nil => exact .nil
  | cons call rest ih =>
    have hcall := agree_of_matches_reachable (matches_call call (rel_reachable_iff.2 h))
    exact .cons hcall (ih hcall.2.2)

/-- No sequence of calls touches an unreachable cell. -/
theorem sameUnreachable_dialogue {m : Memory} (h : m.SameUnreachable c.memory)
    (calls : List HostCall) : ∀ o ∈ c.dialogue calls, m.SameUnreachable o.state.memory := by
  induction calls generalizing c with
  | nil => exact List.forall_mem_nil _
  | cons call rest ih =>
    have hcall := h.trans (sameUnreachable_call call c)
    exact List.forall_mem_cons.2 ⟨hcall, ih hcall⟩

/-- **Unreachable storage is neither observable nor modified.** Two processors that differ in
unreachable cells of their memories only answer every sequence of calls with the same results,
errors and events, the same in everything but those cells after each call; and each keeps what its
own unreachable cells held at the start. -/
theorem unreachable_storage_is_inert (h : c.SameVisible d) (calls : List HostCall) :
    List.Forall₂ (fun o p => p.result = o.result ∧ p.events = o.events ∧
        o.state.SameVisible p.state ∧ c.memory.SameUnreachable o.state.memory ∧
        d.memory.SameUnreachable p.state.memory)
      (c.dialogue calls) (d.dialogue calls) := by
  have hsame := h.dialogue calls
  have hc := sameUnreachable_dialogue (.refl c.memory) calls
  have hd := sameUnreachable_dialogue (.refl d.memory) calls
  refine List.forall₂_iff_get.2 ⟨hsame.length_eq, fun i hi hj => ?_⟩
  obtain ⟨hresult, hevents, hvisible⟩ := hsame.get hi hj
  exact ⟨hresult, hevents, hvisible, hc _ (List.get_mem _ _), hd _ (List.get_mem _ _)⟩

/-- `LDA #$55`, then `STA $0900`: the store goes to `$0100`, and the raw cell `$0900` stays what it
is. -/
theorem unreachable_storage_is_inert_under_store :
    let memory := ((Memory.blank .silent).load 0x0300 [0xA9, 0x55, 0x8D, 0x00, 0x09]).load
      0xFFFC [0x00, 0x03]
    let c := ofMemory memory {}
    let d := ofMemory (memory.setCell 0x0900 0xEE) {}
    let calls : List HostCall := [.reset, .step, .step, .read 0x0900, .readWord 0x2000]
    c.SameVisible d ∧ d.memory.cell 0x0900 = 0xEE ∧
      (d.dialogue calls).map Outcome.result =
        [.ok .done, .ok (.stepped ⟨0x0300, 0xA9, 2, false, none⟩),
          .ok (.stepped ⟨0x0302, 0x8D, 4, false, none⟩), .ok (.byte 0x55), .ok (.word 0)] ∧
      ∀ o ∈ d.dialogue calls, o.state.memory.cell 0x0900 = 0xEE := by
  intro memory c d calls
  have hmemory : memory.SameReachable (memory.setCell 0x0900 0xEE) :=
    .setCell memory (.inl (by decide)) 0xEE
  have h : c.SameVisible d := .ofMemory hmemory {}
  have hcell : d.memory.cell 0x0900 = 0xEE :=
    (Memory.cell_setCell memory 0x0900 0x0900 0xEE).trans (if_pos rfl)
  have hinert := unreachable_storage_is_inert h calls
  have hresults : (d.dialogue calls).map Outcome.result =
      (c.dialogue calls).map Outcome.result := by
    rw [← List.forall₂_eq_eq_eq, List.forall₂_map_left_iff, List.forall₂_map_right_iff]
    exact .flip (hinert.imp fun _ _ ho => ho.1)
  have hkept : List.Forall₂ (fun p _ => p.state.memory.cell 0x0900 = 0xEE ∧ True)
      (d.dialogue calls) (c.dialogue calls) :=
    .flip (hinert.imp fun _ _ ho =>
      ⟨(ho.2.2.2.2.cell 0x0900 (.inl (by decide))).trans hcell, trivial⟩)
  refine ⟨h, hcell, ?_, ((List.forall₂_and_left _ _).1 hkept).1⟩
  rw [hresults]
  decide +kernel

end Cpu

end NesCore
