import NesCore.Cpu.Stack
import NesCore.Proofs.Course.Demand

/-!
# The course of pushes and pulls

A push at `$00` and a pull at `$FF` demand room before the access itself. `pushDemands` and
`pullDemands` list the demands of several pushes or pulls in a row, `pushed` and `pulled` the
state they leave.
-/

namespace NesCore.Cpu

open NesCore.Action

variable {β : Type} {c : Cpu} {ds : List Demand}

/-- The word whose bytes lie at two addresses. -/
def peekWord (c : Cpu) (low high : UInt16) : UInt16 :=
  Word.make (c.memory.peek low) (c.memory.peek high)

/-! ## Pushes -/

/-- The demand for room, for a push. -/
def roomToPush (sp : UInt8) : List Demand :=
  if sp = 0x00 then [.stackRoom .overflow sp] else []

/-- The demands of pushing bytes one after the other. -/
def pushDemands (sp : UInt8) : List UInt8 → List Demand
  | [] => []
  | v :: rest => roomToPush sp ++ .write (stackAddress sp) v :: pushDemands (sp - 1) rest

/-- The processor after pushing bytes one after the other. -/
def pushed (c : Cpu) : List UInt8 → Cpu
  | [] => c
  | v :: rest =>
    pushed { c with memory := c.memory.written (stackAddress c.sp) v, sp := c.sp - 1 } rest

theorem pushDemands_cons (sp : UInt8) (v : UInt8) (rest : List UInt8) :
    pushDemands sp (v :: rest) = pushDemands sp [v] ++ pushDemands (sp - 1) rest := by
  simp [pushDemands]

theorem pushDemands_word (sp : UInt8) (high low : UInt8) (rest : List UInt8) :
    pushDemands sp (high :: low :: rest) =
      pushDemands sp [high, low] ++ pushDemands (sp - 1 - 1) rest := by
  simp [pushDemands]

theorem policy_pushed (c : Cpu) (bytes : List UInt8) :
    (c.pushed bytes).memory.policy = c.memory.policy := by
  induction bytes generalizing c with
  | nil => rfl
  | cons v rest ih =>
    rw [pushed, ih]
    exact Memory.policy_written c.memory (stackAddress c.sp) v

theorem not_rom_stackAddress (sp : UInt8) : ¬ romStart ≤ stackAddress sp := by
  have hlt := sp.toNat_lt
  have hrom : romStart.toNat = 0x8000 := rfl
  rw [UInt16.le_iff_toNat_le, stackAddress, Word.toNat_make]
  simp
  omega

/-- No policy rules the stack. -/
theorem not_isIo_stackAddress (sp : UInt8) : ¬ IsIo (stackAddress sp) := by
  have hlt := sp.toNat_lt
  rw [isIo_iff_toNat, stackAddress, Word.toNat_make]
  simp
  omega

/-- The stack does not reach what lies from `$8000` on. -/
theorem peek_pushed_of_rom {a : UInt16} (ha : romStart ≤ a) (bytes : List UInt8) :
    (c.pushed bytes).memory.peek a = c.memory.peek a := by
  induction bytes generalizing c with
  | nil => rfl
  | cons v rest ih =>
    rw [pushed, ih]
    exact Memory.peek_written_of_rom ha (not_rom_stackAddress c.sp) v

theorem follows_checkWrap (origin : UInt16) (wrap : StackWrap) :
    Follows (checkWrap origin wrap) c [.stackRoom wrap c.sp] fun _ s => s = c := by
  unfold checkWrap
  refine .look_bind ?_
  dsimp only [id]
  have hgrants : c.terms.Grants (.stackRoom wrap c.sp) ↔ c.config.stackCheck ≠ .fatal := Iff.rfl
  cases h : c.config.stackCheck with
  | off => exact .granted (hgrants.2 (by rw [h]; decide)) rfl (.pure rfl)
  | warn => exact .granted (hgrants.2 (by rw [h]; decide)) rfl (.note rfl)
  | fatal => exact .fail (fun hg => hgrants.1 hg h) rfl []

theorem follows_push (origin : UInt16) (v : UInt8) :
    Follows (push origin v) c (pushDemands c.sp [v]) fun _ s => s = c.pushed [v] := by
  have hrest : Follows (do
      write (stackAddress c.sp) v
      update fun c' => c'.setRegister .sp (c.sp - 1)) c [.write (stackAddress c.sp) v]
        fun _ s => s = c.pushed [v] :=
    .write_bind (.update rfl rfl)
  unfold push
  refine .look_bind ?_
  by_cases hsp : c.sp = 0x00
  · have hcheck := (follows_checkWrap (c := c) origin .overflow).andThen fun _ => hrest
    simpa [pushDemands, roomToPush, hsp] using hcheck
  · simpa [pushDemands, roomToPush, hsp] using hrest

theorem follows_pushWord (origin w : UInt16) :
    Follows (pushWord origin w) c (pushDemands c.sp [Word.high w, Word.low w])
      fun _ s => s = c.pushed [Word.high w, Word.low w] := by
  rw [pushDemands_cons]
  exact (follows_push origin (Word.high w)).andThen fun _ => follows_push origin (Word.low w)

/-! ## Pulls -/

/-- The demand for room, for a pull. -/
def roomToPull (sp : UInt8) : List Demand :=
  if sp = 0xFF then [.stackRoom .underflow sp] else []

/-- The demands of a number of pulls. -/
def pullDemands (sp : UInt8) : Nat → List Demand
  | 0 => []
  | n + 1 => roomToPull sp ++ .read (stackAddress (sp + 1)) :: pullDemands (sp + 1) n

/-- The processor after a pull. -/
def pulled (c : Cpu) : Cpu := { c with sp := c.sp + 1 }

theorem pullDemands_succ (sp : UInt8) (n : Nat) :
    pullDemands sp (n + 1) = pullDemands sp 1 ++ pullDemands (sp + 1) n := by
  simp [pullDemands]

theorem follows_pull (origin : UInt16) :
    Follows (pull origin) c (pullDemands c.sp 1) fun v s =>
      v = c.memory.peek (stackAddress (c.sp + 1)) ∧ s = c.pulled := by
  have hrest : Follows (do
      update fun c' => c'.setRegister .sp (c.sp + 1)
      read (stackAddress (c.sp + 1))) c [.read (stackAddress (c.sp + 1))] fun v s =>
        v = c.memory.peek (stackAddress (c.sp + 1)) ∧ s = c.pulled :=
    .update_bind rfl (.read ⟨rfl, rfl⟩)
  unfold pull
  refine .look_bind ?_
  by_cases hsp : c.sp = 0xFF
  · have hcheck := (follows_checkWrap (c := c) origin .underflow).andThen fun _ => hrest
    simpa [pullDemands, roomToPull, hsp] using hcheck
  · simpa [pullDemands, roomToPull, hsp] using hrest

theorem follows_pullWord (origin : UInt16) :
    Follows (pullWord origin) c (pullDemands c.sp 2) fun w s =>
      w = c.peekWord (stackAddress (c.sp + 1)) (stackAddress (c.sp + 1 + 1)) ∧
        s = c.pulled.pulled := by
  rw [pullDemands_succ]
  refine (follows_pull origin).bind fun low s hs => ?_
  obtain ⟨rfl, rfl⟩ := hs
  refine (follows_pull origin).bind_nil fun high s hs => ?_
  obtain ⟨rfl, rfl⟩ := hs
  exact .pure ⟨rfl, rfl⟩

end NesCore.Cpu
