import NesCore.Notice

/-!
# Actions

An action works on a state and ends with a result or an error. Either way it leaves the state it
has reached and the events on the way there, in order. `run_bind` says how events add up; the
monad laws hold (`LawfulMonad`).
-/

namespace NesCore

/-- Something that an observer of the machine can see. -/
inductive Event
  /-- A bus read, with the value unless the access was refused. -/
  | read (address : UInt16) (value : Option UInt8)
  /-- A bus write, which may have been refused. -/
  | write (address : UInt16) (value : UInt8) (accepted : Bool)
  | notice (notice : Notice)
  deriving DecidableEq, Repr

/-- The notice of an event. -/
def Event.notice? : Event → Option Notice
  | .notice n => some n
  | .read .. | .write .. => none

/-- How an action ended. -/
structure Outcome (σ ε α : Type) where
  events : List Event
  result : Except ε α
  state : σ

/-- The notices of an outcome. -/
def Outcome.notices {σ ε α : Type} (o : Outcome σ ε α) : List Notice :=
  o.events.filterMap Event.notice?

/-- A computation on a state that can fail half way. -/
@[ext] structure Action (σ ε α : Type) where
  run : σ → Outcome σ ε α

namespace Action

variable {σ τ ε ε₁ α β : Type}

/-! ## Sequencing -/

/-- An outcome continued by an action; an error ends the sequence. -/
def followedBy (first : Outcome σ ε α) (next : α → Action σ ε β) : Outcome σ ε β :=
  match first.result with
  | .ok a =>
    let last := (next a).run first.state
    { last with events := first.events ++ last.events }
  | .error e => ⟨first.events, .error e, first.state⟩

instance : Monad (Action σ ε) where
  pure a := ⟨fun s => ⟨[], .ok a, s⟩⟩
  bind x f := ⟨fun s => followedBy (x.run s) f⟩

@[simp] theorem run_pure (a : α) (s : σ) :
    (pure a : Action σ ε α).run s = ⟨[], .ok a, s⟩ := rfl

theorem run_bind (x : Action σ ε α) (f : α → Action σ ε β) (s : σ) :
    (x >>= f).run s = followedBy (x.run s) f := rfl

theorem run_bind_ok {x : Action σ ε α} {s t : σ} {events : List Event} {a : α}
    (h : x.run s = ⟨events, .ok a, t⟩) (f : α → Action σ ε β) :
    (x >>= f).run s =
      ⟨events ++ ((f a).run t).events, ((f a).run t).result, ((f a).run t).state⟩ := by
  rw [run_bind, h]
  rfl

theorem run_bind_error {x : Action σ ε α} {s t : σ} {events : List Event} {e : ε}
    (h : x.run s = ⟨events, .error e, t⟩) (f : α → Action σ ε β) :
    (x >>= f).run s = ⟨events, .error e, t⟩ := by
  rw [run_bind, h]
  rfl

instance : LawfulMonad (Action σ ε) := LawfulMonad.mk' _
  (fun x => by
    ext s
    rcases h : x.run s with ⟨events, a | e, t⟩ <;>
      simp [Functor.map, followedBy, h])
  (fun a f => by
    ext s
    simp [run_bind, followedBy])
  (fun x f g => by
    ext s
    rcases h : x.run s with ⟨events, e | a, t⟩
    · simp [run_bind, followedBy, h]
    · rcases h' : (f a).run t with ⟨events', e | b, t'⟩ <;>
        simp [run_bind, followedBy, h, h'])

/-! ## Single steps -/

/-- Ends with an error. -/
def fail (e : ε) : Action σ ε α := ⟨fun s => ⟨[], .error e, s⟩⟩

/-- Yields a view of the state. -/
def look (view : σ → α) : Action σ ε α := ⟨fun s => ⟨[], .ok (view s), s⟩⟩

/-- Changes the state. -/
def update (f : σ → σ) : Action σ ε Unit := ⟨fun s => ⟨[], .ok (), f s⟩⟩

/-- Puts a notice on record. -/
def note (n : Notice) : Action σ ε Unit := ⟨fun s => ⟨[.notice n], .ok (), s⟩⟩

@[simp] theorem run_fail (e : ε) (s : σ) :
    (fail e : Action σ ε α).run s = ⟨[], .error e, s⟩ := rfl

@[simp] theorem run_look (view : σ → α) (s : σ) :
    (look view : Action σ ε α).run s = ⟨[], .ok (view s), s⟩ := rfl

@[simp] theorem run_update (f : σ → σ) (s : σ) :
    (update f : Action σ ε Unit).run s = ⟨[], .ok (), f s⟩ := rfl

@[simp] theorem run_note (n : Notice) (s : σ) :
    (note n : Action σ ε Unit).run s = ⟨[.notice n], .ok (), s⟩ := rfl

/-! ## Changing error and state -/

/-- Another account of the same errors. -/
def mapError (f : ε → ε₁) (x : Action σ ε α) : Action σ ε₁ α :=
  ⟨fun s =>
    let o := x.run s
    ⟨o.events, o.result.mapError f, o.state⟩⟩

/-- An action on a part of a larger state. -/
def onPart (part : τ → σ) (put : τ → σ → τ) (x : Action σ ε α) : Action τ ε α :=
  ⟨fun t =>
    let o := x.run (part t)
    ⟨o.events, o.result, put t o.state⟩⟩

@[simp] theorem run_mapError (f : ε → ε₁) (x : Action σ ε α) (s : σ) :
    (x.mapError f).run s = ⟨(x.run s).events, (x.run s).result.mapError f, (x.run s).state⟩ := rfl

@[simp] theorem run_onPart (part : τ → σ) (put : τ → σ → τ) (x : Action σ ε α) (t : τ) :
    (x.onPart part put).run t =
      ⟨(x.run (part t)).events, (x.run (part t)).result, put t (x.run (part t)).state⟩ := rfl

end Action

end NesCore
