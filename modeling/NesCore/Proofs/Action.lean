import NesCore.Action

/-!
# Reading a sequence of actions

What a sequence ends with, where it leaves the state and which bus accesses it makes, in terms of
its two parts (`result_bind`, `state_bind`, `accesses_bind`). `Ends` says all of it at once, and
`Ends.bind` continues one account with another: what follows an error is left out.
-/

namespace NesCore

/-- A byte access as it appears on the bus. -/
inductive BusAccess
  | read (address : UInt16)
  | write (address : UInt16) (value : UInt8)
  deriving DecidableEq, Repr

/-- The address of an access. -/
def BusAccess.address : BusAccess → UInt16
  | read a => a
  | write a _ => a

/-- The access of an event. -/
def Event.access? : Event → Option BusAccess
  | .read a _ => some (.read a)
  | .write a v _ => some (.write a v)
  | .notice _ => none

/-- The accesses of an outcome, in order. -/
def Outcome.accesses {σ ε α : Type} (o : Outcome σ ε α) : List BusAccess :=
  o.events.filterMap Event.access?

namespace Action

variable {σ ε ε₁ α β : Type}

/-! ## Sequences -/

/-- Looking changes nothing. -/
theorem run_look_bind (view : σ → α) (f : α → Action σ ε β) (s : σ) :
    (look view >>= f).run s = (f (view s)).run s := rfl

theorem state_bind (x : Action σ ε α) (f : α → Action σ ε β) (s : σ) :
    ((x >>= f).run s).state =
      match (x.run s).result with
      | .ok a => ((f a).run (x.run s).state).state
      | .error _ => (x.run s).state := by
  rcases h : x.run s with ⟨events, e | a, t⟩
  · rw [run_bind_error h]
  · rw [run_bind_ok h]

theorem result_bind (x : Action σ ε α) (f : α → Action σ ε β) (s : σ) :
    ((x >>= f).run s).result =
      match (x.run s).result with
      | .ok a => ((f a).run (x.run s).state).result
      | .error e => .error e := by
  rcases h : x.run s with ⟨events, e | a, t⟩
  · rw [run_bind_error h]
  · rw [run_bind_ok h]

theorem events_bind (x : Action σ ε α) (f : α → Action σ ε β) (s : σ) :
    ((x >>= f).run s).events =
      match (x.run s).result with
      | .ok a => (x.run s).events ++ ((f a).run (x.run s).state).events
      | .error _ => (x.run s).events := by
  rcases h : x.run s with ⟨events, e | a, t⟩
  · rw [run_bind_error h]
  · rw [run_bind_ok h]

/-- Whatever is picked from the events of a sequence is picked from those of its parts. -/
theorem filterMap_events_bind {γ : Type} (pick : Event → Option γ) (x : Action σ ε α)
    (f : α → Action σ ε β) (s : σ) :
    ((x >>= f).run s).events.filterMap pick =
      match (x.run s).result with
      | .ok a => (x.run s).events.filterMap pick ++
          ((f a).run (x.run s).state).events.filterMap pick
      | .error _ => (x.run s).events.filterMap pick := by
  rw [events_bind]
  cases (x.run s).result with
  | error e => rfl
  | ok a => exact List.filterMap_append

theorem accesses_bind (x : Action σ ε α) (f : α → Action σ ε β) (s : σ) :
    ((x >>= f).run s).accesses =
      match (x.run s).result with
      | .ok a => (x.run s).accesses ++ ((f a).run (x.run s).state).accesses
      | .error _ => (x.run s).accesses :=
  filterMap_events_bind Event.access? x f s

/-- A sequence succeeds by way of a success of its first part. -/
theorem exists_of_bind_ok {x : Action σ ε α} {f : α → Action σ ε β} {s : σ} {b : β}
    (h : ((x >>= f).run s).result = .ok b) :
    ∃ a, (x.run s).result = .ok a ∧ ((f a).run (x.run s).state).result = .ok b ∧
      ((x >>= f).run s).state = ((f a).run (x.run s).state).state := by
  rw [result_bind] at h
  rw [state_bind]
  cases hx : (x.run s).result with
  | error e =>
    rw [hx] at h
    cases h
  | ok a =>
    rw [hx] at h
    exact ⟨a, rfl, h, rfl⟩

/-- Another account of the errors does not change what succeeds. -/
theorem result_mapError_eq_ok_iff {x : Action σ ε α} {f : ε → ε₁} {s : σ} {a : α} :
    ((x.mapError f).run s).result = .ok a ↔ (x.run s).result = .ok a := by
  rw [run_mapError]
  cases (x.run s).result with
  | error e => exact iff_of_false nofun nofun
  | ok b =>
    constructor
    · rintro ⟨⟩
      rfl
    · rintro ⟨⟩
      rfl

/-! ## Accounts of an action -/

/-- From `s` the action makes the accesses and ends with the error, or else with a result and a
state of which `Q` holds. -/
def Ends (x : Action σ ε α) (s : σ) (accesses : List BusAccess) (error? : Option ε)
    (Q : α → σ → Prop) : Prop :=
  (x.run s).accesses = accesses ∧
    match error? with
    | some e => (x.run s).result = .error e
    | none => ∃ a, (x.run s).result = .ok a ∧ Q a (x.run s).state

namespace Ends

variable {x : Action σ ε α} {s : σ} {xs ys : List BusAccess} {e? e₁? : Option ε}
  {Q : α → σ → Prop} {R : β → σ → Prop}

theorem of_run_eq {y : Action σ ε α} (h : x.run s = y.run s) (hy : y.Ends s xs e? Q) :
    x.Ends s xs e? Q := by
  unfold Ends
  rw [h]
  exact hy

theorem bind {f : α → Action σ ε β} (hx : x.Ends s xs e? Q)
    (hf : ∀ a t, Q a t → (f a).Ends t ys e₁? R) :
    (x >>= f).Ends s (xs ++ if e? = none then ys else []) (e?.or e₁?) R := by
  obtain ⟨haccesses, hresult⟩ := hx
  unfold Ends
  rw [accesses_bind, result_bind, state_bind, haccesses]
  cases e? with
  | some e =>
    have herror : (x.run s).result = .error e := hresult
    simp [herror]
  | none =>
    obtain ⟨a, hok, hq⟩ := hresult
    obtain ⟨haccesses', hresult'⟩ := hf a _ hq
    rw [hok]
    exact ⟨by simp [haccesses'], hresult'⟩

/-- `bind` for a rest that makes no accesses and cannot fail. -/
theorem bind_nil {f : α → Action σ ε β} (hx : x.Ends s xs e? Q)
    (hf : ∀ a t, Q a t → (f a).Ends t [] none R) : (x >>= f).Ends s xs e? R := by
  have h := hx.bind hf
  rwa [ite_self, List.append_nil, Option.or_none] at h

theorem mapError (f : ε → ε₁) (hx : x.Ends s xs e? Q) :
    (x.mapError f).Ends s xs (e?.map f) Q := by
  obtain ⟨haccesses, hresult⟩ := hx
  refine ⟨haccesses, ?_⟩
  cases e? with
  | some e =>
    have herror : (x.run s).result = .error e := hresult
    show (x.run s).result.mapError f = .error (f e)
    rw [herror]
    rfl
  | none =>
    obtain ⟨a, hok, hq⟩ := hresult
    refine ⟨a, ?_, hq⟩
    show (x.run s).result.mapError f = .ok a
    rw [hok]
    rfl

theorem pure {a : α} (h : Q a s) : (pure a : Action σ ε α).Ends s [] none Q := ⟨rfl, a, rfl, h⟩

theorem look_bind {view : σ → α} {f : α → Action σ ε β} (h : (f (view s)).Ends s xs e? R) :
    (Action.look view >>= f).Ends s xs e? R :=
  of_run_eq rfl h

end Ends

end Action

end NesCore
