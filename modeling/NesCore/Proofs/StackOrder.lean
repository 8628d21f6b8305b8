import NesCore.Proofs.Course.Success
import NesCore.Proofs.StackPage
import NesCore.Proofs.StepErrors

/-!
# The order of the stack

Where no check is fatal, the stack is a list that gives back what was pushed last, of bytes or of
words. It holds 256 bytes; a push on a full stack takes the place of the oldest byte (`Lifo`). The
list lies above SP (`OnTop`): a push puts its bytes in front of it (`onTop_pushed`), a pull takes
them off again (`OnTop.pull`), and so calls in any order do with the page what they do with the list
(`of_lifo`).

Main statement: `stack_is_last_in_first_out`.
-/

namespace NesCore

/-! ## Lists of bounded length -/

/-- A call on a stack. -/
inductive StackCall (α : Type)
  | push (v : α)
  | pull
  deriving DecidableEq, Repr

namespace StackCall

variable {α : Type}

/-- The call is a push. -/
def isPush : StackCall α → Bool
  | push _ => true
  | pull => false

/-- The calls on a list, the latest value first: what they pull, and the list that they leave. A
list that has its full length loses its oldest value to a push, and nothing is pulled from an empty
one. -/
inductive Lifo (capacity : Nat) : List α → List (StackCall α) → List α → List α → Prop
  | nil (held : List α) : Lifo capacity held [] [] held
  | push {held pulled left : List α} {calls : List (StackCall α)} (v : α)
    (rest : Lifo capacity ((v :: held).take capacity) calls pulled left) :
    Lifo capacity held (.push v :: calls) pulled left
  | pull {held pulled left : List α} {calls : List (StackCall α)} (v : α)
    (rest : Lifo capacity held calls pulled left) :
    Lifo capacity (v :: held) (.pull :: calls) (v :: pulled) left

variable {calls : List (StackCall α)} {held pulled left : List α} {capacity : Nat}

/-- Cutting off the end in between makes no difference. -/
theorem take_append_take (front back : List α) (n : Nat) :
    (front ++ back.take n).take n = (front ++ back).take n := by
  simp [List.take_append, List.take_take]

theorem lifo_pushes {xs : List α} (hheld : held.length ≤ capacity)
    (h : Lifo capacity ((xs.reverse ++ held).take capacity) calls pulled left) :
    Lifo capacity held (xs.map push ++ calls) pulled left := by
  induction xs generalizing held with
  | nil => simpa [List.take_of_length_le hheld] using h
  | cons x xs ih =>
    refine .push x (ih (List.length_take_le _ _) ?_)
    rw [take_append_take]
    simpa using h

theorem lifo_pulls {k : Nat} (h : k ≤ held.length) :
    Lifo capacity held (List.replicate k pull) (held.take k) (held.drop k) := by
  induction k generalizing held with
  | zero => exact .nil held
  | succ k ih =>
    cases held with
    | nil => exact absurd h (Nat.not_succ_le_zero k)
    | cons v held => exact .pull v (ih (Nat.le_of_succ_le_succ h))

/-- All values are pushed, and then a number of times something is pulled. -/
def pushThenPull (xs : List α) (k : Nat) : List (StackCall α) :=
  xs.map push ++ List.replicate k pull

theorem countP_pushThenPull (xs : List α) (k : Nat) :
    (pushThenPull xs k).countP isPush = xs.length := by
  simp [pushThenPull, List.countP_append, List.countP_replicate, isPush, Function.comp_def]

/-- What is pushed comes back in reverse order, as far as there was room for it. -/
theorem lifo_pushThenPull (capacity : Nat) (xs : List α) :
    let k := min xs.length capacity
    Lifo capacity [] (pushThenPull xs k) (xs.reverse.take k) [] := by
  intro k
  have htake : (xs.reverse ++ []).take capacity = xs.reverse.take k := by
    rw [List.append_nil, List.take_eq_take_iff]
    simp [k, Nat.min_comm]
  refine lifo_pushes (Nat.zero_le _) ?_
  rw [htake]
  have hlength : (xs.reverse.take k).length = k := by simp [k]
  have hpulls : Lifo capacity _ _ _ _ := lifo_pulls (Nat.le_of_eq hlength.symm)
  rwa [List.take_of_length_le (Nat.le_of_eq hlength),
    List.drop_of_length_le (Nat.le_of_eq hlength)] at hpulls

end StackCall

namespace Cpu

open NesCore.Action

variable {c d : Cpu} {bytes rest : List UInt8} {v : UInt8}

/-! ## The list above SP -/

/-- The bytes lie on the stack from the place above SP on. -/
structure OnTop (c : Cpu) (bytes : List UInt8) : Prop where
  length_le : bytes.length ≤ 256
  peek_eq : ∀ i (h : i < bytes.length),
    c.memory.peek (stackAddress (c.sp + UInt8.ofNat (i + 1))) = bytes[i]

theorem onTop_nil (c : Cpu) : c.OnTop [] := ⟨by decide, nofun⟩

/-- A pull takes the first byte off. -/
theorem OnTop.pull (h : c.OnTop (v :: rest)) :
    c.memory.peek (stackAddress (c.sp + 1)) = v ∧ c.pulled.OnTop rest := by
  obtain ⟨hlength, hpeek⟩ := h
  rw [List.length_cons] at hlength
  refine ⟨hpeek 0 (Nat.zero_lt_succ _), by omega, fun i hi => ?_⟩
  have hplace : c.sp + UInt8.ofNat (i + 1 + 1) = c.sp + 1 + UInt8.ofNat (i + 1) := by
    simp only [UInt8.ofNat_add]
    grind
  have hnext := hpeek (i + 1) (Nat.succ_lt_succ hi)
  rwa [hplace] at hnext

/-- A push puts a byte in front, and overwrites the last of 256. -/
theorem OnTop.push (h : c.OnTop bytes) (v : UInt8) :
    (c.pushed [v]).OnTop ((v :: bytes).take 256) := by
  obtain ⟨hlength, hpeek⟩ := h
  refine ⟨List.length_take_le _ _, fun i hi => ?_⟩
  rw [List.length_take, List.length_cons] at hi
  show (c.memory.written (stackAddress c.sp) v).peek (stackAddress (c.sp - 1 + _)) = _
  rw [peek_written_stackAddress, List.getElem_take]
  cases i with
  | zero =>
    have hplace : c.sp = c.sp - 1 + UInt8.ofNat (0 + 1) := by
      show c.sp = c.sp - 1 + 1
      grind
    exact if_pos hplace
  | succ i =>
    have hplace : c.sp - 1 + UInt8.ofNat (i + 1 + 1) = c.sp + UInt8.ofNat (i + 1) := by
      simp only [UInt8.ofNat_add]
      grind
    -- The place of SP itself comes 256 places on, with the byte that is cut off.
    have hne : UInt8.ofNat (i + 1) ≠ 0 := ofNat_succ_ne_zero (by omega)
    rw [hplace, if_neg (by grind)]
    exact hpeek i (by omega)

/-- Several bytes are pushed from the highest address on downwards. -/
theorem OnTop.pushed (h : c.OnTop rest) (bytes : List UInt8) :
    (c.pushed bytes).OnTop ((bytes.reverse ++ rest).take 256) := by
  induction bytes generalizing c rest with
  | nil =>
    rw [List.reverse_nil, List.nil_append, List.take_of_length_le h.length_le]
    exact h
  | cons v bytes ih =>
    have hrest := ih (h.push v)
    rw [StackCall.take_append_take] at hrest
    rw [List.reverse_cons, List.append_assoc]
    exact hrest

/-! ## Beside the stack -/

/-- Only SP and the cells of page one differ. -/
structure DiffersOnStack (c d : Cpu) : Prop where
  eq : d = { c with memory := d.memory, sp := d.sp }
  policy : d.memory.policy = c.memory.policy
  romMapped : d.memory.romMapped = c.memory.romMapped
  cell : ∀ a, ¬ IsStack a → d.memory.cell a = c.memory.cell a

namespace DiffersOnStack

theorem setSp (c : Cpu) (sp : UInt8) : c.DiffersOnStack { c with sp := sp } :=
  ⟨rfl, rfl, rfl, fun _ _ => rfl⟩

theorem trans {s : Cpu} (h : c.DiffersOnStack d) (h' : d.DiffersOnStack s) :
    c.DiffersOnStack s where
  eq := h'.eq.trans (by rw [h.eq])
  policy := h'.policy.trans h.policy
  romMapped := h'.romMapped.trans h.romMapped
  cell a ha := (h'.cell a ha).trans (h.cell a ha)

end DiffersOnStack

theorem differsOnStack_pushed (c : Cpu) (bytes : List UInt8) :
    c.DiffersOnStack (c.pushed bytes) where
  eq := pushed_eq c bytes
  policy := policy_pushed c bytes
  romMapped := by
    induction bytes generalizing c with
    | nil => rfl
    | cons v rest ih => exact (ih _).trans (Memory.romMapped_written _ _ _)
  cell a ha := cell_pushed_of_ne fun i _ h => ha (h ▸ isStack_stackAddress _)

end Cpu

/-! ## Bytes and words -/

open Cpu in
/-- What is pushed and pulled as one. -/
structure StackItem (α : Type) where
  push : UInt16 → α → Action Cpu Fault Unit
  pull : UInt16 → Action Cpu Fault α
  /-- The bytes of a value, from the lowest address on. -/
  bytes : α → List UInt8
  size : Nat
  /-- The number of values that have room. -/
  capacity : Nat
  length_bytes : ∀ v, (bytes v).length = size
  capacity_mul_size : capacity * size = 256
  push_ok : ∀ c origin v, c.config.stackCheck ≠ .fatal →
    ((push origin v).run c).result = .ok () ∧
      ((push origin v).run c).state = c.pushed (bytes v).reverse
  pull_ok : ∀ c origin v rest, c.config.stackCheck ≠ .fatal → c.OnTop (bytes v ++ rest) →
    ((pull origin).run c).result = .ok v ∧
      ((pull origin).run c).state = { c with sp := c.sp + UInt8.ofNat size } ∧
      ((pull origin).run c).state.OnTop rest

namespace StackItem

open Cpu NesCore.Action

variable {α : Type} {c : Cpu} {item : StackItem α}
  {calls : List (StackCall α)} {held pulled left : List α}

/-- A byte. -/
def byte : StackItem UInt8 where
  push := Cpu.push
  pull := Cpu.pull
  bytes v := [v]
  size := 1
  capacity := 256
  length_bytes _ := rfl
  capacity_mul_size := rfl
  push_ok c origin v hcheck := by
    obtain ⟨_, hok, hs⟩ := (Cpu.follows_push origin v).exists_of_grantsAll
      (grantsAll_pushDemands hcheck c.sp [v])
    exact ⟨hok, hs⟩
  pull_ok c origin v rest hcheck h := by
    obtain ⟨w, hok, hvalue, hs⟩ := (Cpu.follows_pull origin).exists_of_grantsAll
      (grantsAll_pullDemands hcheck c.sp 1)
    obtain ⟨hfirst, hrest⟩ := h.pull
    rw [hok, hvalue, hs, hfirst]
    exact ⟨rfl, rfl, hrest⟩

/-- A word, with its low byte below the high one. -/
def word : StackItem UInt16 where
  push := Cpu.pushWord
  pull := Cpu.pullWord
  bytes w := [Word.low w, Word.high w]
  size := 2
  capacity := 128
  length_bytes _ := rfl
  capacity_mul_size := rfl
  push_ok c origin w hcheck := by
    obtain ⟨_, hok, hs⟩ := (Cpu.follows_pushWord origin w).exists_of_grantsAll
      (grantsAll_pushDemands hcheck c.sp [Word.high w, Word.low w])
    exact ⟨hok, hs⟩
  pull_ok c origin w rest hcheck h := by
    obtain ⟨w', hok, hvalue, hs⟩ := (Cpu.follows_pullWord origin).exists_of_grantsAll
      (grantsAll_pullDemands hcheck c.sp 2)
    obtain ⟨hlow, hnext⟩ := h.pull
    obtain ⟨hhigh, hrest⟩ := hnext.pull
    have hw : c.peekWord (stackAddress (c.sp + 1)) (stackAddress (c.sp + 1 + 1)) = w :=
      (congrArg₂ Word.make hlow hhigh).trans (Word.make_low_high w)
    have hsp : c.pulled.pulled = { c with sp := c.sp + UInt8.ofNat 2 } := by
      show { c with sp := c.sp + 1 + 1 } = _
      rw [UInt8.add_assoc]
      rfl
    rw [hok, hvalue, hs, hw]
    exact ⟨rfl, hsp, hrest⟩

/-! ## Calls in a row -/

/-- The calls one after the other, with the values that they pull. -/
def run (item : StackItem α) (origin : UInt16) : List (StackCall α) → Action Cpu Fault (List α)
  | [] => pure []
  | .push v :: calls => do
    item.push origin v
    item.run origin calls
  | .pull :: calls => do
    let v ← item.pull origin
    let rest ← item.run origin calls
    return v :: rest

/-- The bytes of values one after the other. -/
def bytesOf (item : StackItem α) (held : List α) : List UInt8 := held.flatMap item.bytes

theorem bytesOf_cons (v : α) (held : List α) :
    item.bytesOf (v :: held) = item.bytes v ++ item.bytesOf held := rfl

theorem bytesOf_take (n : Nat) (held : List α) :
    item.bytesOf (held.take n) = (item.bytesOf held).take (n * item.size) := by
  induction held generalizing n with
  | nil => simp [bytesOf]
  | cons v held ih =>
    cases n with
    | zero => simp [bytesOf]
    | succ n =>
      have hlength : (n + 1) * item.size = (item.bytes v).length + n * item.size := by
        rw [item.length_bytes, Nat.succ_mul, Nat.add_comm]
      rw [hlength, List.take_succ_cons, bytesOf_cons, bytesOf_cons, List.take_length_add_append, ih]

/-- Pushed values lie in front of those that were there, as far as there is room. -/
theorem onTop_pushed (h : c.OnTop (item.bytesOf held)) (v : α) :
    (c.pushed (item.bytes v).reverse).OnTop
      (item.bytesOf ((v :: held).take item.capacity)) := by
  have hnext := h.pushed (item.bytes v).reverse
  rwa [List.reverse_reverse, ← item.capacity_mul_size, ← bytesOf_cons, ← bytesOf_take] at hnext

/-- Calls on the page do what they do with the list above SP. -/
theorem of_lifo (item : StackItem α) (origin : UInt16)
    (h : StackCall.Lifo item.capacity held calls pulled left)
    (hcheck : c.config.stackCheck ≠ .fatal) (hheld : c.OnTop (item.bytesOf held)) :
    let o := (item.run origin calls).run c
    o.result = .ok pulled ∧ c.DiffersOnStack o.state ∧
      o.state.sp = c.sp - UInt8.ofNat (item.size * calls.countP StackCall.isPush) +
        UInt8.ofNat (item.size * pulled.length) ∧
      o.state.OnTop (item.bytesOf left) := by
  induction h generalizing c with
  | nil held => exact ⟨rfl, .setSp c c.sp, by simp [run], hheld⟩
  | @push held pulled left calls v rest ih =>
    obtain ⟨hok, hs⟩ := item.push_ok c origin v hcheck
    have hconfig : (c.pushed (item.bytes v).reverse).config = c.config := by rw [pushed_eq]
    obtain ⟨hresult, hsame, hsp, hleft⟩ := ih (hconfig ▸ hcheck) (onTop_pushed hheld v)
    simp only [run, result_bind, state_bind, hok, hs]
    refine ⟨hresult, (differsOnStack_pushed c _).trans hsame, ?_, hleft⟩
    rw [hsp, sp_pushed, List.length_reverse, item.length_bytes, List.countP_cons_of_pos rfl,
      Nat.mul_succ, UInt8.ofNat_add]
    grind
  | @pull held pulled left calls v rest ih =>
    obtain ⟨hok, hs, hrest⟩ := item.pull_ok c origin v _ hcheck hheld
    rw [hs] at hrest
    obtain ⟨hresult, hsame, hsp, hleft⟩ := ih (c := { c with sp := c.sp + UInt8.ofNat item.size })
      hcheck hrest
    simp only [run, result_bind, state_bind, hok, hs, hresult, run_pure]
    refine ⟨trivial, (DiffersOnStack.setSp c _).trans hsame, ?_, hleft⟩
    rw [hsp, List.countP_cons_of_neg (by simp [StackCall.isPush]), List.length_cons, Nat.mul_succ,
      UInt8.ofNat_add]
    grind

/-- As many pulls as there is room for, after any number of pushes. -/
theorem of_pushThenPull (item : StackItem α) (origin : UInt16) (xs : List α)
    (hcheck : c.config.stackCheck ≠ .fatal) :
    let k := min xs.length item.capacity
    let o := (item.run origin (StackCall.pushThenPull xs k)).run c
    o.result = .ok (xs.reverse.take k) ∧ c.DiffersOnStack o.state ∧
      o.state.sp =
        c.sp - UInt8.ofNat (item.size * xs.length) + UInt8.ofNat (item.size * k) ∧
      (xs.length ≤ item.capacity → o.state.sp = c.sp) := by
  intro k o
  obtain ⟨hresult, hsame, hsp, -⟩ :=
    of_lifo item origin (StackCall.lifo_pushThenPull item.capacity xs) hcheck (onTop_nil c)
  have hk : (xs.reverse.take k).length = k := by simp [k]
  rw [StackCall.countP_pushThenPull, hk] at hsp
  refine ⟨hresult, hsame, hsp, fun hroom => ?_⟩
  have hall : k = xs.length := Nat.min_eq_left hroom
  rw [hsp, hall, UInt8.sub_add_cancel]

/-- **The stack is last in, first out.** Without a fatal check, whatever the policy and SP: after
pushes of any number of bytes as many pulls as there is room for return the last ones in reverse
order, and of words likewise. SP has moved by the numbers of bytes pushed and pulled, so it is back
where it was unless bytes were lost, and nothing else has changed outside page one. Pushes and pulls
may also alternate in any order: the page gives what a list of 256 bytes or 128 words gives. -/
theorem stack_is_last_in_first_out (c : Cpu) (origin : UInt16)
    (h : c.config.stackCheck ≠ .fatal) :
    (∀ xs : List UInt8,
      let k := min xs.length 256
      let o := (byte.run origin (StackCall.pushThenPull xs k)).run c
      o.result = .ok (xs.reverse.take k) ∧ c.DiffersOnStack o.state ∧
        o.state.sp = c.sp - UInt8.ofNat xs.length + UInt8.ofNat k ∧
        (xs.length ≤ 256 → o.state.sp = c.sp)) ∧
    (∀ ws : List UInt16,
      let k := min ws.length 128
      let o := (word.run origin (StackCall.pushThenPull ws k)).run c
      o.result = .ok (ws.reverse.take k) ∧ c.DiffersOnStack o.state ∧
        o.state.sp = c.sp - UInt8.ofNat (2 * ws.length) + UInt8.ofNat (2 * k) ∧
        (ws.length ≤ 128 → o.state.sp = c.sp)) ∧
    (∀ calls pulled left, StackCall.Lifo 256 [] calls pulled left →
      let o := (byte.run origin calls).run c
      o.result = .ok pulled ∧ c.DiffersOnStack o.state) ∧
    (∀ calls pulled left, StackCall.Lifo 128 [] calls pulled left →
      let o := (word.run origin calls).run c
      o.result = .ok pulled ∧ c.DiffersOnStack o.state) := by
  refine ⟨fun xs => ?bytes, fun ws => of_pushThenPull word origin ws h, ?calls, ?wordCalls⟩
  case bytes =>
    obtain ⟨hresult, hsame, hsp, hback⟩ := of_pushThenPull byte origin xs h
    rw [show byte.size = 1 from rfl, Nat.one_mul, Nat.one_mul] at hsp
    exact ⟨hresult, hsame, hsp, hback⟩
  case calls =>
    intro calls pulled left hlifo
    obtain ⟨hresult, hsame, -⟩ := of_lifo byte origin hlifo h (onTop_nil c)
    exact ⟨hresult, hsame⟩
  case wordCalls =>
    intro calls pulled left hlifo
    obtain ⟨hresult, hsame, -⟩ := of_lifo word origin hlifo h (onTop_nil c)
    exact ⟨hresult, hsame⟩

/-- From `$01` on 300 bytes wrap twice and 44 of them are lost; words come and go across the
wrap. -/
theorem stack_is_last_in_first_out_of_wraps :
    let c : Cpu := { ofMemory (.blank .fault) { stackCheck := .warn } with sp := 0x01 }
    let xs := (List.range 300).map UInt8.ofNat
    let bytes := (byte.run 0x0200 (StackCall.pushThenPull xs 256)).run c
    let words := (word.run 0x0200
      [.push 0x1234, .push 0x5678, .pull, .push 0x9ABC, .pull, .pull]).run c
    c.config.stackCheck ≠ .fatal ∧
      bytes.result = .ok (xs.reverse.take 256) ∧ bytes.state.sp = 0xD5 ∧
      words.result = .ok [0x5678, 0x9ABC, 0x1234] := by
  intro c xs bytes words
  have hcheck : c.config.stackCheck ≠ .fatal := by decide
  obtain ⟨hbytes, -, -, hwords⟩ := stack_is_last_in_first_out c 0x0200 hcheck
  have hroom : min xs.length 256 = 256 := by decide +kernel
  have hpulledBytes := hbytes xs
  rw [hroom] at hpulledBytes
  obtain ⟨hresult, -, hsp, -⟩ := hpulledBytes
  obtain ⟨hpulled, -⟩ := hwords [.push 0x1234, .push 0x5678, .pull, .push 0x9ABC, .pull, .pull] _ _
    (.push _ (.push _ (.pull _ (.push _ (.pull _ (.pull _ (.nil _)))))))
  exact ⟨hcheck, hresult, hsp.trans (by decide +kernel), hpulled⟩

end StackItem

end NesCore
