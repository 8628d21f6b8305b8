import NesCore.Proofs.Composed
import NesCore.Proofs.Course.Success

/-!
# Comparing processors in different surroundings

Two processors with the same registers, of which one works on another memory or with another stack
check, can only tell the difference through a bus access or a stack check. A `Comparison` says how
the surroundings relate, which faults of the first processor end the comparison and which events
both have to show. If it is sound for the three primitives that meet the surroundings (`IsSound`),
every composed action ends alike on both sides (`IsSound.matches_of_composed`), and so does a whole
step (`IsSound.matches_step`).
-/

namespace NesCore.Cpu

open NesCore.Action

variable {ε ε₁ α β : Type} {c d : Cpu}

/-- A way to compare processors in different surroundings. -/
structure Comparison where
  /-- The memory and stack check of the first processor and those of the second. -/
  Related : Memory → StackCheck → Memory → StackCheck → Prop
  /-- The faults of the first processor that end the comparison. -/
  Stops : Fault → Prop
  /-- The events that both processors show. -/
  shows : Event → Bool

namespace Comparison

variable {K : Comparison}

/-- The processors differ in nothing but related surroundings. -/
def Rel (K : Comparison) (c d : Cpu) : Prop :=
  ∃ m check, d = c.around m check ∧ K.Related c.memory c.config.stackCheck m check

/-- Both outcomes have the same result and show the same events. -/
structure Agree (K : Comparison) (o p : Outcome Cpu ε α) : Prop where
  result : p.result = o.result
  state : K.Rel o.state p.state
  events : p.events.filter K.shows = o.events.filter K.shows

/-- The action ends alike from both processors, unless it stops on the first one. -/
def Matches (K : Comparison) (stops : ε → Prop) (x : Action Cpu ε α) (c d : Cpu) : Prop :=
  (∃ e, stops e ∧ (x.run c).result = .error e) ∨ K.Agree (x.run c) (x.run d)

/-! ## Composition -/

theorem Rel.update {g : Cpu → Cpu} (h : K.Rel c d)
    (hg : ∀ m check, g (c.around m check) = (g c).around m check)
    (hm : (g c).memory = c.memory) (hc : (g c).config = c.config) : K.Rel (g c) (g d) := by
  obtain ⟨m, check, rfl, hrelated⟩ := h
  refine ⟨m, check, hg m check, ?_⟩
  rwa [hm, hc]

namespace Matches

variable {stops : ε → Prop}

theorem pure (h : K.Rel c d) (a : α) : K.Matches stops (pure a) c d := .inr ⟨rfl, h, rfl⟩

theorem fail (h : K.Rel c d) (e : ε) : K.Matches stops (fail e : Action Cpu ε α) c d :=
  .inr ⟨rfl, h, rfl⟩

theorem note (h : K.Rel c d) (n : Notice) : K.Matches stops (note n) c d := .inr ⟨rfl, h, rfl⟩

/-- A change of the processor that does not depend on its surroundings. -/
theorem update {g : Cpu → Cpu} (h : K.Rel c d)
    (hg : ∀ m check, g (c.around m check) = (g c).around m check)
    (hm : (g c).memory = c.memory) (hc : (g c).config = c.config) :
    K.Matches stops (update g) c d := .inr ⟨rfl, h.update hg hm hc, rfl⟩

theorem look_bind {view : Cpu → β} {f : β → Action Cpu ε α} (hview : f (view d) = f (view c))
    (h : K.Matches stops (f (view c)) c d) : K.Matches stops (look view >>= f) c d := by
  unfold Matches
  rw [run_look_bind, run_look_bind, hview]
  exact h

theorem bind {x : Action Cpu ε β} {f : β → Action Cpu ε α} (hx : K.Matches stops x c d)
    (hf : ∀ b s t, K.Rel s t → K.Matches stops (f b) s t) : K.Matches stops (x >>= f) c d := by
  rcases hx with ⟨e, he, hx⟩ | ⟨hresult, hstate, hevents⟩
  · exact .inl ⟨e, he, by rw [result_bind, hx]⟩
  cases hx : (x.run c).result with
  | error e =>
    rw [hx] at hresult
    refine .inr ⟨?_, ?_, ?_⟩
    · rw [result_bind, result_bind, hx, hresult]
    · rw [state_bind, state_bind, hx, hresult]
      exact hstate
    · rw [events_bind, events_bind, hx, hresult]
      exact hevents
  | ok b =>
    rw [hx] at hresult
    rcases hf b _ _ hstate with ⟨e, he, hrest⟩ | ⟨hresult', hstate', hevents'⟩
    · exact .inl ⟨e, he, by rw [result_bind, hx]; exact hrest⟩
    · refine .inr ⟨?_, ?_, ?_⟩
      · rw [result_bind, result_bind, hx, hresult]
        exact hresult'
      · rw [state_bind, state_bind, hx, hresult]
        exact hstate'
      · rw [events_bind, events_bind, hx, hresult]
        simp only [List.filter_append, hevents, hevents']

theorem mapError {stops₁ : ε₁ → Prop} {x : Action Cpu ε α} {f : ε → ε₁}
    (hx : K.Matches stops x c d) (hf : ∀ e, stops e → stops₁ (f e)) :
    K.Matches stops₁ (x.mapError f) c d := by
  rcases hx with ⟨e, he, hx⟩ | ⟨hresult, hstate, hevents⟩
  · refine .inl ⟨f e, hf e he, ?_⟩
    rw [run_mapError, hx]
    rfl
  · refine .inr ⟨?_, hstate, hevents⟩
    rw [run_mapError, run_mapError, hresult]

end Matches

/-- Outcomes that agree on all events have the same events. -/
theorem Agree.events_eq {o p : Outcome Cpu ε α} (h : K.Agree o p)
    (hshows : ∀ e, K.shows e = true) : p.events = o.events := by
  have hall (es : List Event) : es.filter K.shows = es :=
    List.filter_eq_self.2 fun e _ => hshows e
  have hevents := h.events
  rwa [hall, hall] at hevents

/-- Processors with the same stack check meet a wrap in the same way. -/
theorem matches_checkWrap {stops : Fault → Prop} (h : K.Rel c d)
    (hcheck : d.config.stackCheck = c.config.stackCheck) (origin : UInt16) (wrap : StackWrap) :
    K.Matches stops (checkWrap origin wrap) c d := by
  have hsp : d.sp = c.sp := by
    obtain ⟨m, check, rfl, -⟩ := h
    rfl
  refine .look_bind ?_ ?_
  · dsimp only [id]
    rw [hcheck, hsp]
  · dsimp only [id]
    cases c.config.stackCheck with
    | off => exact .pure h ()
    | warn => exact .note h _
    | fatal => exact .fail h _

/-! ## Composed actions -/

/-- The comparison is right about single accesses and stack checks. -/
structure IsSound (K : Comparison) : Prop where
  read : ∀ {c d} a, K.Rel c d → K.Matches K.Stops (Cpu.read a) c d
  write : ∀ {c d} a v, K.Rel c d → K.Matches K.Stops (Cpu.write a v) c d
  checkWrap : ∀ {c d} origin wrap, K.Rel c d → K.Matches K.Stops (Cpu.checkWrap origin wrap) c d

/-- What is right about single accesses is right about everything composed of them. -/
theorem IsSound.matches_of_composed (hK : K.IsSound) {stack counts : Bool} {x : Action Cpu Fault α}
    (hx : Composed stack counts x) (h : K.Rel c d) : K.Matches K.Stops x c d := by
  induction hx generalizing c d with
  | pure a => exact .pure h a
  | fail e => exact .fail h e
  | note => exact .note h _
  | update hg => exact .update h (hg.around c) (hg.memory c) (hg.config c)
  | read a => exact hK.read a h
  | write a v => exact hK.write a v h
  | checkWrap _ origin wrap => exact hK.checkWrap origin wrap h
  | look_bind hview hf ih =>
    have hd := h
    obtain ⟨m, check, rfl, -⟩ := h
    exact .look_bind (hview c m check) (ih c hd)
  | bind hx hf ihx ihf => exact .bind (ihx h) fun b s t hst => ihf b hst

/-! ## Steps -/

theorem matches_proceed (h : K.Rel c d) (origin : UInt16) (ins : Instruction) (flow : Flow) :
    K.Matches K.Stops (proceed origin ins flow) c d := by
  cases flow with
  | next => exact .update h (fun _ _ => rfl) rfl rfl
  | jump => exact .pure h ()
  | halt => exact .bind (.update h (fun _ _ => rfl) rfl rfl) fun _ s t hst => .note hst _

theorem IsSound.matches_executeNext (hK : K.IsSound) (h : K.Rel c d) (origin : UInt16) :
    K.Matches K.Stops (executeNext origin) c d := by
  unfold executeNext
  refine .bind (hK.matches_of_composed (@composed_fetch false false) h) fun opcode s t hst => ?_
  cases Instruction.lookup opcode with
  | none => exact .fail hst _
  | some ins =>
    refine .bind (hK.matches_of_composed (@composed_resolve false false ins.mode) hst)
      fun operand s t hst => ?_
    refine .bind (hK.matches_of_composed (composed_execute _ _ _) hst) fun flow s t hst => ?_
    refine .bind (matches_proceed hst origin ins flow) fun _ s t hst => ?_
    refine .bind (.update hst (fun _ _ => rfl) rfl rfl) fun _ s t hst => ?_
    exact .pure hst _

theorem IsSound.matches_runningStep (hK : K.IsSound) (h : K.Rel c d) :
    K.Matches (fun e : CpuError => K.Stops e.fault) runningStep c d := by
  have hlooks {s t : Cpu} (hst : K.Rel s t) : t.pc = s.pc ∧ t.cycles = s.cycles := by
    obtain ⟨m, check, rfl, -⟩ := hst
    exact ⟨rfl, rfl⟩
  unfold Matches
  rw [run_runningStep, run_runningStep, (hlooks h).1, (hlooks h).2]
  have hservice := hK.matches_of_composed (composed_serviceInterrupts c.pc) h
  refine Matches.bind (hservice.mapError fun _ he => he) fun interrupt s t hst => ?_
  refine .look_bind (by rw [(hlooks hst).1]) ?_
  have hnext := hK.matches_executeNext hst s.pc
  refine .bind (hnext.mapError fun _ he => he) fun ⟨opcode, flow⟩ s t hst => ?_
  exact .look_bind (by rw [(hlooks hst).2]) (.pure hst _)

/-- An error marks both processors. -/
theorem Agree.faultedOnError {o p : Outcome Cpu CpuError α} (h : K.Agree o p) :
    K.Agree (faultedOnError o) (faultedOnError p) := by
  have hresult := h.result
  unfold Cpu.faultedOnError
  cases ho : o.result with
  | ok a =>
    rw [ho] at hresult
    rw [hresult]
    exact h
  | error e =>
    rw [ho] at hresult
    rw [hresult]
    refine ⟨rfl, ?_, h.events⟩
    exact h.state.update (g := fun s => { s with state := .faulted }) (fun _ _ => rfl) rfl rfl

/-- A step compares as its parts do. A halted processor looks at the opcode it halted on, so that
one has to be the same on both sides. -/
theorem IsSound.matches_step (hK : K.IsSound) (h : K.Rel c d)
    (hpeek : c.state = .halted → d.memory.peek c.pc = c.memory.peek c.pc) :
    K.Matches (fun e => K.Stops e.fault) step c d := by
  have hd := h
  obtain ⟨m, check, rfl, -⟩ := h
  have hstate : (c.around m check).state = c.state := rfl
  unfold Matches
  cases hs : c.state with
  | running =>
    rw [run_step_of_running hs, run_step_of_running (hstate.trans hs), result_faultedOnError]
    exact (hK.matches_runningStep hd).imp id Agree.faultedOnError
  | halted =>
    have houtcome : (c.around m check).haltedOutcome = c.haltedOutcome := by
      unfold haltedOutcome
      rw [← hpeek hs]
      rfl
    rw [run_step_of_halted hs, run_step_of_halted (hstate.trans hs), houtcome]
    exact .inr ⟨rfl, hd, rfl⟩
  | resetPending | faulted =>
    have hready : c.state = .resetPending ∨ c.state = .faulted := by simp [hs]
    rw [run_step_of_not_ready hready, run_step_of_not_ready (hstate ▸ hready)]
    exact .inr ⟨rfl, hd, rfl⟩

end Comparison

end NesCore.Cpu
