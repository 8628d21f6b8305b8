import NesCore.Cpu.Execute
import NesCore.Instruction.Table
import NesCore.Proofs.Course.Operand

/-!
# The course of operations

An operation on an operand of a mode that it admits first reads or writes the operand
(`dataDemands`) and then works on the stack (`stackDemands`); it demands nothing else. Every row
of the opcode table pairs its operation with an admitted mode (`Instruction.admits`), so no
instruction lacks a place to read or write. `effect` is the processor that an operation leaves if
all its demands are granted, `flow` says where the processor goes on.

Main statement: `follows_execute`.
-/

namespace NesCore

/-! ## Modes of operations -/

/-- The operation goes to the operand's address. -/
def Operation.goesToAddress : Operation → Bool
  | .branch .. | .jump | .call => true
  | _ => false

/-- An operation can work on operands of a mode. -/
structure Operation.Admits (operation : Operation) (mode : Mode) : Prop where
  immediate : mode = .immediate → operation.access = .read
  storage : operation.access ≠ .none → mode ≠ .implied
  address : operation.goesToAddress → mode ≠ .implied ∧ mode ≠ .accumulator

theorem Operation.Admits.not_immediate {operation : Operation} {mode : Mode}
    (h : operation.Admits mode) (hr : operation.access ≠ .read) : mode ≠ .immediate :=
  fun hm => hr (h.immediate hm)

/-- **No row of the opcode table asks for a place that its mode does not give.** -/
theorem Instruction.admits {ins : Instruction} (h : ins ∈ table) :
    ins.operation.Admits ins.mode := by
  have immediate : ∀ row ∈ table, row.mode = .immediate → row.operation.access = .read := by
    decide +kernel
  have storage : ∀ row ∈ table, row.operation.access ≠ .none → row.mode ≠ .implied := by
    decide +kernel
  have address : ∀ row ∈ table, row.operation.goesToAddress →
      row.mode ≠ .implied ∧ row.mode ≠ .accumulator := by
    decide +kernel
  exact ⟨immediate ins h, storage ins h, address ins h⟩

namespace Cpu

open NesCore.Action

variable {c : Cpu} {mode : Mode} {origin : UInt16}

/-! ## What an operation demands -/

/-- The byte that an operation puts into its operand where it has found another one. -/
def stored (c : Cpu) (operation : Operation) (found : UInt8) : UInt8 :=
  match operation with
  | .store register => c.toRegisters.get register
  | .shift kind => kind.value found c.status.carry
  | .stepOperand direction => direction.next found
  | _ => found

/-- The accesses to the operand: one read, one write, or a read and then a write. -/
def dataDemands (c : Cpu) (operation : Operation) (mode : Mode) : List Demand :=
  let written := c.stored operation (c.operandValue mode)
  match operation.access with
  | .none => []
  | .read => c.dataRead mode
  | .write => c.dataWrite mode written
  | .modify => c.dataRead mode ++ c.dataWrite mode written

/-- The reads of a vector, low byte first. -/
def vectorReads (vector : UInt16) : List Demand := [.read vector, .read (vector + 1)]

/-- Pushes and pulls, with PC behind the opcode. A call saves the address of its last byte. -/
def stackDemands (c : Cpu) : Operation → List Demand
  | .pushAccumulator => pushDemands c.sp [c.a]
  | .pushStatus => pushDemands c.sp [c.status.pushedBySoftware.toByte]
  | .pullAccumulator | .pullStatus => pullDemands c.sp 1
  | .call => pushDemands c.sp [Word.high (c.pc + 1), Word.low (c.pc + 1)]
  | .returnFromCall => pullDemands c.sp 2
  | .returnFromInterrupt => pullDemands c.sp 3
  | .brk =>
    match c.config.brk with
    | .halt => []
    | .interrupt =>
      pushDemands c.sp
          [Word.high (c.pc + 1), Word.low (c.pc + 1), c.status.pushedBySoftware.toByte]
        ++ vectorReads irqVector
  | _ => []

/-! ## What an operation leaves -/

/-- Where the processor goes on behind an operation. -/
def flow (c : Cpu) : Operation → Flow
  | .branch flag value => if c.status.get flag = value then .jump else .next
  | .jump | .call | .returnFromCall | .returnFromInterrupt => .jump
  | .brk =>
    match c.config.brk with
    | .halt => .halt
    | .interrupt => .jump
  | _ => .next

/-- The processor with a result in a register and its flags. -/
def withResult (c : Cpu) (register : Register) (v : UInt8) : Cpu :=
  (c.setRegister register v).noteResult v

/-- The processor with a sum in the accumulator and its flags. -/
def withSum (c : Cpu) (sum : Alu.Sum) : Cpu :=
  ((c.setRegister .a sum.value).setStatus
    { c.status with carry := sum.carry, overflow := sum.overflow }).noteResult sum.value

/-- The processor in the handler of a vector, with interrupts disabled. -/
def withHandler (c : Cpu) (vector : UInt16) : Cpu :=
  { c with
    status := { c.status with interruptDisable := true }
    pc := c.peekWord vector (vector + 1) }

/-- The byte that a pull finds. -/
def top (c : Cpu) : UInt8 := c.memory.peek (stackAddress (c.sp + 1))

/-- The word that two pulls find. -/
def topWord (c : Cpu) : UInt16 := c.peekWord (stackAddress (c.sp + 1)) (stackAddress (c.sp + 1 + 1))

/-- The processor with a byte pulled into the status register. -/
def pulledStatus (c : Cpu) : Cpu := c.pulled.setStatus (Status.ofByte c.top).withoutBreak

/-- The bytes that a software interrupt saves, with PC behind the opcode. -/
def savedBySoftware (c : Cpu) : List UInt8 :=
  [Word.high (c.pc + 1), Word.low (c.pc + 1), c.status.pushedBySoftware.toByte]

/-- The processor that an operation leaves, with PC behind the opcode. -/
def effect (c : Cpu) (operation : Operation) (mode : Mode) : Cpu :=
  let v := c.operandValue mode
  let goTo (s : Cpu) : Cpu := (c.effectiveAddress mode).elim s fun a => { s with pc := a }
  match operation with
  | .load register => c.withResult register v
  | .store register => c.withOperand mode (c.toRegisters.get register)
  | .transfer source .sp => c.setRegister .sp (c.toRegisters.get source)
  | .transfer source target => c.withResult target (c.toRegisters.get source)
  | .pushAccumulator => c.pushed [c.a]
  | .pushStatus => c.pushed [c.status.pushedBySoftware.toByte]
  | .pullAccumulator => c.pulled.withResult .a c.top
  | .pullStatus => c.pulledStatus
  | .add => c.withSum (Alu.add c.a v c.status.carry)
  | .subtract => c.withSum (Alu.subtract c.a v c.status.carry)
  | .logic kind => c.withResult .a (kind.apply c.a v)
  | .compare register =>
    let value := c.toRegisters.get register
    (c.setStatus { c.status with carry := v ≤ value }).noteResult (value - v)
  | .bitTest =>
    c.setStatus
      { c.status with
        zero := c.a &&& v == 0
        negative := Status.isNegative v
        overflow := v.toNat.testBit 6 }
  | .shift kind =>
    let result := kind.value v c.status.carry
    let s := c.withOperand mode result
    (s.setStatus { s.status with carry := kind.outgoing v }).noteResult result
  | .stepOperand direction =>
    (c.withOperand mode (direction.next v)).noteResult (direction.next v)
  | .stepRegister register direction =>
    c.withResult register (direction.next (c.toRegisters.get register))
  | .branch flag value =>
    if c.status.get flag = value then
      goTo { c with cycles := c.cycles + (if c.crossesPage mode then 2 else 1) }
    else c
  | .jump => goTo c
  | .call => goTo (c.pushed [Word.high (c.pc + 1), Word.low (c.pc + 1)])
  | .returnFromCall => { c.pulled.pulled with pc := c.topWord + 1 }
  | .returnFromInterrupt =>
    { c.pulledStatus.pulled.pulled with pc := c.pulledStatus.topWord }
  | .brk =>
    match c.config.brk with
    | .halt => c
    | .interrupt => (c.pushed c.savedBySoftware).withHandler irqVector
  | .setFlag flag value => c.setStatus (c.status.set flag value)
  | .nop => c

/-! ## Going to a handler -/

theorem follows_enterHandler (vector : UInt16) :
    Follows (enterHandler vector) c (vectorReads vector) fun _ s => s = c.withHandler vector := by
  refine .update_bind rfl (.bind_nil (follows_readWord vector) fun w s hw => ?_)
  obtain ⟨rfl, rfl⟩ := hw
  exact .update rfl rfl

theorem follows_softwareInterrupt (h : c.pc = origin + 1) :
    Follows (softwareInterrupt origin) c
      (pushDemands c.sp c.savedBySoftware ++ vectorReads irqVector)
      fun flow s => flow = .jump ∧ s = (c.pushed c.savedBySoftware).withHandler irqVector := by
  have hreturn : origin + 2 = c.pc + 1 := by rw [h, UInt16.add_assoc]; rfl
  unfold softwareInterrupt savedBySoftware
  rw [hreturn, pushDemands_word, List.append_assoc]
  refine (follows_pushWord origin (c.pc + 1)).andThen fun _ => .look_bind ?_
  exact (follows_push origin _).andThen fun _ =>
    (follows_enterHandler irqVector).bind_nil fun _ _ hs => .pure ⟨rfl, hs⟩

/-! ## All operations -/

theorem follows_pullStatusByte (origin : UInt16) :
    Follows (pullStatusByte origin) c (pullDemands c.sp 1) fun _ s => s = c.pulledStatus := by
  refine (follows_pull origin).bind_nil fun p s hs => ?_
  obtain ⟨rfl, rfl⟩ := hs
  exact .update rfl rfl

/-- An operation makes its accesses to the operand, then those to the stack, and leaves its
effect. -/
theorem follows_execute (operation : Operation) (h : operation.Admits mode)
    (hpc : c.pc = origin + 1) :
    Follows (execute origin operation (c.operand mode)) c
      (c.dataDemands operation mode ++ c.stackDemands operation)
      fun flow s => flow = c.flow operation ∧ s = c.effect operation mode := by
  have hread := @follows_readOperand c mode (c.crossesPage mode)
  have hwrite := @follows_writeOperand c mode (c.crossesPage mode)
  have haddress := @follows_operandAddress c mode (c.crossesPage mode)
  unfold execute
  refine .look_bind ?_
  cases operation with
  | load | logic | add | subtract | compare | bitTest =>
    refine (hread (h.storage nofun)).bind fun v s hs => ?_
    obtain ⟨rfl, rfl⟩ := hs
    exact .update_pure rfl ⟨rfl, rfl⟩
  | store =>
    have himm := h.not_immediate nofun
    exact (hwrite _ (h.storage nofun) himm).bind fun _ _ hs => .pure ⟨rfl, hs⟩
  | transfer source target =>
    cases target with
    | sp => exact .update_pure rfl ⟨rfl, rfl⟩
    | a | x | y => exact .update_pure rfl ⟨rfl, rfl⟩
  | pushAccumulator | pushStatus =>
    exact (follows_push origin _).bind_nil fun _ _ hs => .pure ⟨rfl, hs⟩
  | pullAccumulator =>
    refine (follows_pull origin).bind_nil fun _ _ hs => ?_
    obtain ⟨rfl, rfl⟩ := hs
    exact .update_pure rfl ⟨rfl, rfl⟩
  | pullStatus =>
    exact (follows_pullStatusByte origin).bind_nil fun _ _ hs => .pure ⟨rfl, hs⟩
  | shift | stepOperand =>
    have himm := h.not_immediate nofun
    have hmode := h.storage nofun
    change Follows _ c ((c.dataRead mode ++ c.dataWrite mode _) ++ []) _
    rw [List.append_nil]
    refine (hread hmode).bind fun v s hs => ?_
    obtain ⟨rfl, rfl⟩ := hs
    refine (hwrite _ hmode himm).bind_nil fun _ s hs => ?_
    subst hs
    exact .update_pure rfl ⟨rfl, rfl⟩
  | stepRegister | setFlag => exact .update_pure rfl ⟨rfl, rfl⟩
  | branch flag value =>
    show Follows (if c.status.get flag = value then takeBranch _ else return .next) c [] _
    split
    · next hflag =>
      refine (haddress (h.address rfl).1 (h.address rfl).2).bind fun a s hs => ?_
      obtain ⟨ha, rfl⟩ := hs
      exact .update_pure rfl (by simp [flow, effect, hflag, ha, operand])
    · next hflag => exact .pure (by simp [flow, effect, hflag])
  | jump =>
    refine (haddress (h.address rfl).1 (h.address rfl).2).bind fun a s hs => ?_
    obtain ⟨ha, rfl⟩ := hs
    exact .update_pure rfl ⟨rfl, by simp [effect, ha]⟩
  | call =>
    refine (haddress (h.address rfl).1 (h.address rfl).2).bind fun a s hs => ?_
    obtain ⟨ha, rfl⟩ := hs
    refine (follows_pushWord origin _).bind_nil fun _ s hs => ?_
    subst hs
    exact .update_pure rfl ⟨rfl, by simp [effect, ha]⟩
  | returnFromCall =>
    refine (follows_pullWord origin).bind_nil fun _ _ hs => ?_
    obtain ⟨rfl, rfl⟩ := hs
    exact .update_pure (terms_setPc _ _) ⟨rfl, rfl⟩
  | returnFromInterrupt =>
    show Follows _ c (pullDemands c.sp 3) _
    rw [pullDemands_succ]
    refine (follows_pullStatusByte origin).bind fun _ s hs => ?_
    subst hs
    refine (follows_pullWord origin).bind_nil fun _ _ hs => ?_
    obtain ⟨rfl, rfl⟩ := hs
    exact .update_pure (terms_setPc _ _) ⟨rfl, rfl⟩
  | brk =>
    show Follows _ c (c.stackDemands .brk) _
    dsimp only [id, stackDemands, flow, effect]
    cases c.config.brk with
    | halt => exact .pure ⟨rfl, rfl⟩
    | interrupt => exact follows_softwareInterrupt hpc
  | nop => exact .pure ⟨rfl, rfl⟩

end Cpu

end NesCore
