import NesCore.Cpu.Step
import NesCore.Proofs.Memory.History

/-!
# Demands

To go on, an instruction needs bus accesses to be accepted, the stack pointer not to wrap where
that is fatal, and its opcode to be documented: these are its demands, in order. `Follows` says of
an action that it carries the demands out up to the first refused one and then ends with the fault
of that one, or else succeeds. Demands add up along a sequence of actions (`Follows.bind`), so the
course of a whole step is read off its parts.
-/

namespace NesCore

/-- Something that has to be granted for an instruction to go on. -/
inductive Demand
  | access (x : BusAccess)
  /-- Room on the stack for a push at `$00` or a pull at `$FF`. -/
  | stackRoom (wrap : StackWrap) (sp : UInt8)
  /-- A row in the opcode table. -/
  | documented (opcode : UInt8)
  deriving DecidableEq, Repr

namespace Demand

/-- The fault of an instruction that is refused the demand. -/
def fault : Demand → Fault
  | access x => .bus (.unmapped x.address)
  | stackRoom wrap sp => .stack wrap sp
  | documented opcode => .illegalOpcode opcode

/-- The bus access that the demand makes, granted or not. -/
def access? : Demand → Option BusAccess
  | access x => some x
  | stackRoom .. | documented _ => none

/-- The demand to read an address. -/
abbrev read (a : UInt16) : Demand := access (.read a)

/-- The demand to write a byte. -/
abbrev write (a : UInt16) (v : UInt8) : Demand := access (.write a v)

end Demand

/-! ## Granting -/

/-- What decides on demands. -/
structure Terms where
  policy : IoPolicy
  stackCheck : StackCheck
  deriving DecidableEq, Repr

namespace Terms

/-- A demand is granted. -/
def Grants (t : Terms) : Demand → Prop
  | .access x => ¬ t.policy.Refuses x.address
  | .stackRoom .. => t.stackCheck ≠ .fatal
  | .documented opcode => (Instruction.lookup opcode).isSome

instance (t : Terms) : DecidablePred t.Grants
  | .access _ => inferInstanceAs (Decidable (¬ _))
  | .stackRoom .. => inferInstanceAs (Decidable (¬ _))
  | .documented _ => inferInstanceAs (Decidable (_ = true))

/-- The demand at which a sequence of demands comes to its end, if not all are granted. -/
def firstRefused (t : Terms) (ds : List Demand) : Option Demand := ds.find? fun d => ¬ t.Grants d

/-- The accesses of a sequence of demands, the first refused one included. -/
def carriedOut (t : Terms) : List Demand → List BusAccess
  | [] => []
  | d :: rest => d.access?.toList ++ if t.Grants d then t.carriedOut rest else []

variable {t : Terms} {d : Demand} {ds : List Demand}

theorem firstRefused_cons_of_grants (h : t.Grants d) (ds : List Demand) :
    t.firstRefused (d :: ds) = t.firstRefused ds := by
  simp [firstRefused, h]

theorem firstRefused_cons_of_not_grants (h : ¬ t.Grants d) (ds : List Demand) :
    t.firstRefused (d :: ds) = some d := by
  simp [firstRefused, h]

theorem carriedOut_cons_of_grants (h : t.Grants d) (ds : List Demand) :
    t.carriedOut (d :: ds) = d.access?.toList ++ t.carriedOut ds := by
  simp [carriedOut, h]

theorem carriedOut_cons_of_not_grants (h : ¬ t.Grants d) (ds : List Demand) :
    t.carriedOut (d :: ds) = d.access?.toList := by
  simp [carriedOut, h]

theorem firstRefused_append (ds es : List Demand) :
    t.firstRefused (ds ++ es) = (t.firstRefused ds).or (t.firstRefused es) :=
  List.find?_append

/-- Nothing is carried out after a refusal. -/
theorem carriedOut_append (ds es : List Demand) :
    t.carriedOut (ds ++ es) =
      t.carriedOut ds ++ if t.firstRefused ds = none then t.carriedOut es else [] := by
  induction ds with
  | nil => rfl
  | cons d ds ih =>
    rw [List.cons_append]
    by_cases h : t.Grants d
    · rw [carriedOut_cons_of_grants h, carriedOut_cons_of_grants h, firstRefused_cons_of_grants h,
        ih, List.append_assoc]
    · rw [carriedOut_cons_of_not_grants h, carriedOut_cons_of_not_grants h,
        firstRefused_cons_of_not_grants h, if_neg (Option.some_ne_none d), List.append_nil]

theorem not_grants_of_firstRefused (h : t.firstRefused ds = some d) : ¬ t.Grants d := by
  simpa using List.find?_some h

/-- All demands of a sequence are granted. -/
def GrantsAll (t : Terms) (ds : List Demand) : Prop := ∀ d ∈ ds, t.Grants d

namespace GrantsAll

theorem nil : t.GrantsAll [] := List.forall_mem_nil _

theorem cons (hd : t.Grants d) (hds : t.GrantsAll ds) : t.GrantsAll (d :: ds) :=
  List.forall_mem_cons.2 ⟨hd, hds⟩

theorem append {es : List Demand} (hds : t.GrantsAll ds) (hes : t.GrantsAll es) :
    t.GrantsAll (ds ++ es) :=
  List.forall_mem_append.2 ⟨hds, hes⟩

theorem ite {p : Prop} [Decidable p] {es : List Demand} (hds : t.GrantsAll ds)
    (hes : t.GrantsAll es) : t.GrantsAll (if p then ds else es) := by
  split
  · exact hds
  · exact hes

theorem elim {α : Type} {f : α → List Demand} (o : Option α) (h : ∀ a, t.GrantsAll (f a)) :
    t.GrantsAll (o.elim [] f) := by
  cases o with
  | none => exact nil
  | some a => exact h a

theorem firstRefused_eq_none (h : t.GrantsAll ds) : t.firstRefused ds = none := by
  rw [firstRefused, List.find?_eq_none]
  intro d hd
  simpa using h d hd

end GrantsAll

end Terms

namespace Cpu

open NesCore.Action

/-- What decides on the demands of a processor. -/
def terms (c : Cpu) : Terms := ⟨c.memory.policy, c.config.stackCheck⟩

variable {α β : Type} {c : Cpu} {ds es : List Demand} {Q : α → Cpu → Prop}

/-! ## Accesses of the processor -/

theorem onBus_bind (x : Action Memory BusError α) (f : α → Action Memory BusError β) :
    onBus (x >>= f) = onBus x >>= fun a => onBus (f a) := by
  ext c
  rcases h : x.run c.memory with ⟨events, e | a, m⟩
  · simp [onBus, run_bind, followedBy, Except.mapError, h]
  · simp [onBus, run_bind, followedBy, Except.mapError, h]

/-- A word is two accesses of the processor, low byte first. -/
theorem readWord_eq (a : UInt16) :
    readWord a = do
      let low ← read a
      let high ← read (a + 1)
      return Word.make low high := by
  unfold readWord Bus.readWord
  simp only [onBus_bind]
  rfl

theorem run_read_of_refuses {a : UInt16} (h : c.memory.policy.Refuses a) :
    (read a).run c = ⟨[.read a none], .error (.bus (.unmapped a)), c⟩ := by
  simp only [read, onBus, run_mapError, run_onPart, Bus.run_read_of_refuses h]
  rfl

theorem run_read_of_not_refuses {a : UInt16} (h : ¬ c.memory.policy.Refuses a) :
    (read a).run c = ⟨[.read a (some (c.memory.peek a))], .ok (c.memory.peek a), c⟩ := by
  simp only [read, onBus, run_mapError, run_onPart, Bus.run_read_of_not_refuses h]
  rfl

theorem accesses_write (c : Cpu) (a : UInt16) (v : UInt8) :
    ((write a v).run c).accesses = [.write a v] := Bus.accesses_write c.memory a v

theorem state_write (c : Cpu) (a : UInt16) (v : UInt8) :
    ((write a v).run c).state = { c with memory := c.memory.written a v } := by
  rw [← Bus.state_write]
  rfl

theorem result_write (c : Cpu) (a : UInt16) (v : UInt8) :
    ((write a v).run c).result =
      if c.memory.policy.Refuses a then .error (.bus (.unmapped a)) else .ok () := by
  show ((Bus.write a v).run c.memory).result.mapError Fault.bus = _
  rw [Bus.result_write]
  split_ifs <;> rfl

theorem terms_written (c : Cpu) (a : UInt16) (v : UInt8) :
    terms { c with memory := c.memory.written a v } = c.terms := by
  simp [terms]

theorem terms_setPc (c : Cpu) (pc : UInt16) : terms { c with pc := pc } = c.terms := rfl

/-! ## Following -/

/-- From `c` the action carries out the demands. Unless one is refused it succeeds on the same
terms, with a result and a state of which `Q` holds. -/
def Follows (x : Action Cpu Fault α) (c : Cpu) (ds : List Demand) (Q : α → Cpu → Prop) : Prop :=
  x.Ends c (c.terms.carriedOut ds) ((c.terms.firstRefused ds).map Demand.fault)
    fun a s => s.terms = c.terms ∧ Q a s

namespace Follows

/-! ## Composition -/

theorem bind {x : Action Cpu Fault α} {f : α → Action Cpu Fault β} {R : β → Cpu → Prop}
    (hx : Follows x c ds Q) (hf : ∀ a s, Q a s → Follows (f a) s es R) :
    Follows (x >>= f) c (ds ++ es) R := by
  -- The rest is judged on the terms of its own start, which are those of the whole.
  have hrest : ∀ a s, (s.terms = c.terms ∧ Q a s) →
      (f a).Ends s (c.terms.carriedOut es) ((c.terms.firstRefused es).map Demand.fault)
        fun b t => t.terms = c.terms ∧ R b t := by
    rintro a s ⟨hterms, hq⟩
    rw [← hterms]
    exact hf a s hq
  have h := Ends.bind hx hrest
  unfold Follows
  rw [Terms.carriedOut_append, Terms.firstRefused_append, Option.map_or]
  simpa only [Option.map_eq_none_iff] using h

/-- `bind` for a rest without demands. -/
theorem bind_nil {x : Action Cpu Fault α} {f : α → Action Cpu Fault β} {R : β → Cpu → Prop}
    (hx : Follows x c ds Q) (hf : ∀ a s, Q a s → Follows (f a) s [] R) :
    Follows (x >>= f) c ds R :=
  List.append_nil ds ▸ hx.bind hf

/-- `bind` for an action that leaves a known state. -/
theorem andThen {x : Action Cpu Fault α} {t : Cpu} {f : α → Action Cpu Fault β}
    {R : β → Cpu → Prop} (hx : Follows x c ds fun _ s => s = t)
    (hf : ∀ a, Follows (f a) t es R) : Follows (x >>= f) c (ds ++ es) R :=
  hx.bind fun a _ hs => hs ▸ hf a

theorem ite_pos {p : Prop} [Decidable p] {x y : Action Cpu Fault α} (h : p)
    (hx : Follows x c ds Q) : Follows (if p then x else y) c ds Q :=
  Ends.of_run_eq (by rw [if_pos h]) hx

theorem ite_neg {p : Prop} [Decidable p] {x y : Action Cpu Fault α} (h : ¬ p)
    (hy : Follows y c ds Q) : Follows (if p then x else y) c ds Q :=
  Ends.of_run_eq (by rw [if_neg h]) hy

/-- A demand that is granted without an access leaves no trace. -/
theorem granted {x : Action Cpu Fault α} {d : Demand} (hg : c.terms.Grants d)
    (ha : d.access? = none) (hx : Follows x c ds Q) : Follows x c (d :: ds) Q := by
  unfold Follows
  rw [Terms.carriedOut_cons_of_grants hg, Terms.firstRefused_cons_of_grants hg, ha]
  exact hx

theorem fail {d : Demand} (hd : ¬ c.terms.Grants d) (ha : d.access? = none) (ds : List Demand) :
    Follows (fail d.fault) c (d :: ds) Q := by
  unfold Follows
  rw [Terms.carriedOut_cons_of_not_grants hd, Terms.firstRefused_cons_of_not_grants hd, ha]
  exact ⟨rfl, rfl⟩

/-! ## Steps without demands -/

theorem pure {a : α} (h : Q a c) : Follows (pure a) c [] Q := ⟨rfl, a, rfl, rfl, h⟩

theorem look {view : Cpu → α} (h : Q (view c) c) : Follows (look view) c [] Q :=
  ⟨rfl, view c, rfl, rfl, h⟩

theorem update {f : Cpu → Cpu} {Q : Unit → Cpu → Prop} (ht : (f c).terms = c.terms)
    (h : Q () (f c)) : Follows (update f) c [] Q := ⟨rfl, (), rfl, ht, h⟩

theorem note {n : Notice} {Q : Unit → Cpu → Prop} (h : Q () c) : Follows (note n) c [] Q :=
  ⟨rfl, (), rfl, rfl, h⟩

theorem look_bind {view : Cpu → α} {f : α → Action Cpu Fault β} {R : β → Cpu → Prop}
    (h : Follows (f (view c)) c ds R) : Follows (Action.look view >>= f) c ds R :=
  Ends.of_run_eq rfl h

theorem update_bind {g : Cpu → Cpu} {f : Unit → Action Cpu Fault β} {R : β → Cpu → Prop}
    (ht : (g c).terms = c.terms) (h : Follows (f ()) (g c) ds R) :
    Follows (Action.update g >>= f) c ds R :=
  (update ht rfl).andThen fun _ => h

/-- Changing registers at the end demands nothing. -/
theorem update_pure {g : Cpu → Cpu} {b : β} {R : β → Cpu → Prop} (ht : (g c).terms = c.terms)
    (h : R b (g c)) : Follows (do Action.update g; return b) c [] R :=
  update_bind ht (pure h)

/-! ## Accesses -/

/-- A single access that ends as the policy decides. -/
theorem of_access {x : Action Cpu Fault α} {b : BusAccess} {a : UInt16} (hb : b.address = a)
    (hr : c.memory.policy.Refuses a →
      x.Ends c [b] (some (.bus (.unmapped a))) fun v s => s.terms = c.terms ∧ Q v s)
    (hg : ¬ c.memory.policy.Refuses a →
      x.Ends c [b] none fun v s => s.terms = c.terms ∧ Q v s) : Follows x c [.access b] Q := by
  subst hb
  unfold Follows
  by_cases h : c.memory.policy.Refuses b.address
  · have hd : ¬ c.terms.Grants (.access b) := fun hg => hg h
    rw [Terms.carriedOut_cons_of_not_grants hd, Terms.firstRefused_cons_of_not_grants hd]
    exact hr h
  · have hd : c.terms.Grants (.access b) := h
    rw [Terms.carriedOut_cons_of_grants hd, Terms.firstRefused_cons_of_grants hd]
    exact hg h

theorem read {a : UInt16} {Q : UInt8 → Cpu → Prop} (h : Q (c.memory.peek a) c) :
    Follows (Cpu.read a) c [.read a] Q := by
  refine of_access (a := a) rfl (fun hr => ?_) fun hr => ?_
  · unfold Ends
    rw [run_read_of_refuses hr]
    exact ⟨rfl, rfl⟩
  · unfold Ends
    rw [run_read_of_not_refuses hr]
    exact ⟨rfl, c.memory.peek a, rfl, rfl, h⟩

theorem write {a : UInt16} {v : UInt8} {Q : Unit → Cpu → Prop}
    (h : Q () { c with memory := c.memory.written a v }) :
    Follows (Cpu.write a v) c [.write a v] Q := by
  have hrecord := accesses_write c a v
  have hresult := result_write c a v
  refine of_access (a := a) rfl (fun hr => ⟨hrecord, ?_⟩) fun hr => ⟨hrecord, (), ?_⟩
  · rwa [if_pos hr] at hresult
  · rw [if_neg hr] at hresult
    rw [state_write]
    exact ⟨hresult, terms_written c a v, h⟩

theorem read_bind {a : UInt16} {f : UInt8 → Action Cpu Fault β} {R : β → Cpu → Prop}
    (h : Follows (f (c.memory.peek a)) c ds R) :
    Follows (Cpu.read a >>= f) c (.read a :: ds) R :=
  bind (read (Q := fun v s => v = c.memory.peek a ∧ s = c) ⟨rfl, rfl⟩)
    fun _ _ hs => hs.1 ▸ hs.2 ▸ h

theorem write_bind {a : UInt16} {v : UInt8} {f : Unit → Action Cpu Fault β} {R : β → Cpu → Prop}
    (h : Follows (f ()) { c with memory := c.memory.written a v } ds R) :
    Follows (Cpu.write a v >>= f) c (.write a v :: ds) R :=
  (write rfl).andThen fun _ => h

end Follows

end Cpu

end NesCore
