import Mathlib.Data.List.Basic
import NesCore.Cpu.Run
import NesCore.Proofs.Action
import NesCore.Proofs.Schedule

/-!
# Runs that are cut and resumed

A viewer is shown the steps of a run, feeds memory in between and ends the run after a number of
them (`Viewer.host`). Had it asked for more, the run would have gone the same way up to its end, and
on from there if it was the viewer that ended it (`run_runFor_more`); so a run that is cut and
resumed is the run that was not cut. What the viewer sees are the steps that succeed
(`seen_runFor`), and a run ends as halted exactly if it sees a step that halts
(`result_runFor_eq_halted_iff`).

Main statement: `run_cut_and_resumed`.
-/

namespace NesCore

/-! ## Viewers -/

/-- What a viewer keeps from one run to the next. -/
structure Viewer where
  /-- The ticks it was shown, each with the memory of that moment. -/
  seen : List (Tick × Memory)
  /-- The number of ticks after which it ends the run. -/
  left : Nat

/-- A viewer as a host. How it changes memory depends on how many ticks came before, on the tick and
on memory. -/
def Viewer.host (change : Nat → Tick → Memory → Memory) : Host Viewer := fun v tick m =>
  ⟨⟨v.seen ++ [(tick, m)], v.left - 1⟩, change v.seen.length tick m, v.left != 1⟩

/-- A processor with another view of its host's state. -/
def Hosted.map {η η' : Type} (f : η → η') (s : Hosted η) : Hosted η' := ⟨f s.host, s.cpu⟩

/-- The viewer asks for more ticks. -/
def Hosted.more (n : Nat) (s : Hosted Viewer) : Hosted Viewer :=
  { s with host := { s.host with left := s.host.left + n } }

namespace Cpu

open NesCore.Action

variable {η : Type} {host : Host η} {s : Hosted η} {k : Nat}

/-! ## Runs, step by step -/

/-- What a step that starts here shows to a host: nothing if it fails. -/
def shown (c : Cpu) : Option (Tick × Memory) :=
  match (step.run c).result with
  | .ok out => some ((step.run c).state.tick out, (step.run c).state.memory)
  | .error _ => none

/-- The processors from which a run of at most the given number of steps makes its steps. -/
def attempts (host : Host η) : Nat → Hosted η → List Cpu
  | 0, _ => []
  | k + 1, s =>
    s.cpu :: match ((advance host).run s).result with
      | .ok none => attempts host k ((advance host).run s).state
      | _ => []

/-- The run ends with this outcome, after steps from these processors. -/
def RunsTo (host : Host η) (s : Hosted η) (tried : List Cpu)
    (o : Outcome (Hosted η) CpuError (Option StopReason)) : Prop :=
  ∃ k, (runFor host k).run s = o ∧ o.result ≠ .ok none ∧ attempts host k s = tried

theorem run_advance_of_error {events : List Event} {e : CpuError} {c : Cpu}
    (h : step.run s.cpu = ⟨events, .error e, c⟩) :
    (advance host).run s = ⟨events, .error e, { s with cpu := c }⟩ :=
  run_bind_error (by rw [run_onPart, h]) _

theorem run_advance_of_ok {events : List Event} {out : StepOutcome} {c : Cpu}
    (h : step.run s.cpu = ⟨events, .ok out, c⟩) :
    let reply := host s.host (c.tick out) c.memory
    (advance host).run s =
      ⟨events, .ok (if out.halted then some .halted
          else if reply.goOn then none else some .cancelled),
        ⟨reply.host, { c with memory := reply.memory }⟩⟩ := by
  intro reply
  refine (run_bind_ok (by rw [run_onPart, h]) _).trans ?_
  rw [showTick, List.append_nil]

theorem run_bind_of_going {x y : Action (Hosted η) CpuError (Option StopReason)}
    (h : (x.run s).result = .ok none) :
    let o := y.run (x.run s).state
    (do
      match ← x with
      | some reason => return some reason
      | none => y : Action (Hosted η) CpuError (Option StopReason)).run s =
      ⟨(x.run s).events ++ o.events, o.result, o.state⟩ := by
  rcases hx : x.run s with ⟨events, r, t⟩
  rw [hx] at h
  cases h
  exact run_bind_ok hx _

theorem run_bind_of_ended {x y : Action (Hosted η) CpuError (Option StopReason)}
    (h : (x.run s).result ≠ .ok none) :
    (do
      match ← x with
      | some reason => return some reason
      | none => y : Action (Hosted η) CpuError (Option StopReason)).run s = x.run s := by
  rcases hx : x.run s with ⟨events, e | r, t⟩
  · exact run_bind_error hx _
  · rw [hx] at h
    cases r with
    | none => exact absurd rfl h
    | some reason =>
      refine (run_bind_ok hx _).trans ?_
      rw [run_pure, List.append_nil]

theorem run_runFor_of_go (h : ((advance host).run s).result = .ok none) :
    let o := (runFor host k).run ((advance host).run s).state
    (runFor host (k + 1)).run s =
      ⟨((advance host).run s).events ++ o.events, o.result, o.state⟩ :=
  run_bind_of_going h

theorem run_runFor_of_stop (h : ((advance host).run s).result ≠ .ok none) :
    (runFor host (k + 1)).run s = (advance host).run s :=
  run_bind_of_ended h

theorem attempts_of_go (h : ((advance host).run s).result = .ok none) :
    attempts host (k + 1) s = s.cpu :: attempts host k ((advance host).run s).state := by
  rw [attempts, h]

theorem attempts_of_stop (h : ((advance host).run s).result ≠ .ok none) :
    attempts host (k + 1) s = [s.cpu] := by
  rw [attempts]
  split
  · next hgo => exact absurd hgo h
  · rfl

theorem attempts_add (j k : Nat) :
    attempts host (j + k) s = attempts host j s ++
      match ((runFor host j).run s).result with
      | .ok none => attempts host k ((runFor host j).run s).state
      | _ => [] := by
  induction j generalizing s with
  | zero =>
    rw [Nat.zero_add]
    rfl
  | succ j ih =>
    rw [Nat.add_right_comm]
    by_cases hgo : ((advance host).run s).result = .ok none
    · rw [attempts_of_go hgo, attempts_of_go hgo, run_runFor_of_go hgo, ih]
      rfl
    · rw [attempts_of_stop hgo, attempts_of_stop hgo, run_runFor_of_stop hgo]
      split
      · next h => exact absurd h hgo
      · rfl

/-- A host adds nothing to the events of a step. -/
theorem events_advance (host : Host η) (s : Hosted η) :
    ((advance host).run s).events = (step.run s.cpu).events := by
  rcases hstep : step.run s.cpu with ⟨events, e | out, c⟩
  · rw [run_advance_of_error hstep]
  · rw [run_advance_of_ok hstep]

/-- The events of a run are those of its steps, one after the other. -/
theorem events_runFor (host : Host η) (k : Nat) (s : Hosted η) :
    ((runFor host k).run s).events =
      (attempts host k s).flatMap fun c => (step.run c).events := by
  induction k generalizing s with
  | zero => rfl
  | succ k ih =>
    by_cases hgo : ((advance host).run s).result = .ok none
    · rw [run_runFor_of_go hgo, attempts_of_go hgo, List.flatMap_cons, events_advance, ih]
    · rw [run_runFor_of_stop hgo, attempts_of_stop hgo, List.flatMap_singleton, events_advance]

/-- A run that has ended does not go on. -/
theorem run_runFor_add_of_ended {j : Nat} (h : ((runFor host j).run s).result ≠ .ok none)
    (k : Nat) : (runFor host (j + k)).run s = (runFor host j).run s := by
  rw [runFor_add]
  exact run_bind_of_ended h

/-- A run that goes on is continued by another one. -/
theorem run_runFor_add_of_going {j : Nat} (h : ((runFor host j).run s).result = .ok none)
    (k : Nat) :
    let first := (runFor host j).run s
    let last := (runFor host k).run first.state
    (runFor host (j + k)).run s = ⟨first.events ++ last.events, last.result, last.state⟩ := by
  rw [runFor_add]
  exact run_bind_of_going h

/-- How a run ends does not depend on how many steps it might have made. -/
theorem RunsTo.unique {tried tried' : List Cpu}
    {o o' : Outcome (Hosted η) CpuError (Option StopReason)} (h : RunsTo host s tried o)
    (h' : RunsTo host s tried' o') : o' = o ∧ tried' = tried := by
  have hle {j k : Nat} (hjk : j ≤ k) (hj : ((runFor host j).run s).result ≠ .ok none) :
      (runFor host k).run s = (runFor host j).run s ∧ attempts host k s = attempts host j s := by
    obtain ⟨d, rfl⟩ := Nat.exists_eq_add_of_le hjk
    refine ⟨run_runFor_add_of_ended hj d, ?_⟩
    rw [attempts_add]
    split
    · next hnone => exact absurd hnone hj
    · exact List.append_nil _
  obtain ⟨j, rfl, hj, rfl⟩ := h
  obtain ⟨k, rfl, hk, rfl⟩ := h'
  rcases Nat.le_total j k with hjk | hkj
  · exact hle hjk hj
  · exact (hle hkj hk).imp Eq.symm Eq.symm

/-! ## Hosts that answer alike -/

section Alike

variable {η' : Type} {host' : Host η'} {f : η → η'}
  (halike : ∀ h tick m, host' (f h) tick m =
    ⟨f (host h tick m).host, (host h tick m).memory, (host h tick m).goOn⟩)

include halike

theorem run_advance_map (s : Hosted η) :
    (advance host').run (s.map f) = ((advance host).run s).onState (Hosted.map f) := by
  rcases hstep : step.run s.cpu with ⟨events, e | out, c⟩
  · have hmap : step.run (s.map f).cpu = _ := hstep
    rw [run_advance_of_error hmap, run_advance_of_error hstep]
    rfl
  · have hmap : step.run (s.map f).cpu = _ := hstep
    rw [run_advance_of_ok hmap, run_advance_of_ok hstep]
    simp only [Hosted.map, halike, Outcome.onState]

/-- Hosts that answer alike get the same run. -/
theorem run_runFor_map (k : Nat) (s : Hosted η) :
    (runFor host' k).run (s.map f) = ((runFor host k).run s).onState (Hosted.map f) ∧
      attempts host' k (s.map f) = attempts host k s := by
  induction k generalizing s with
  | zero => exact ⟨rfl, rfl⟩
  | succ k ih =>
    have hadvance := run_advance_map halike s
    by_cases hgo : ((advance host).run s).result = .ok none
    · have hgo' : ((advance host').run (s.map f)).result = .ok none := by
        rw [hadvance]
        exact hgo
      obtain ⟨hrun, hattempts⟩ := ih ((advance host).run s).state
      have hstate : ((advance host').run (s.map f)).state =
          ((advance host).run s).state.map f := by rw [hadvance]; rfl
      rw [run_runFor_of_go hgo', run_runFor_of_go hgo, attempts_of_go hgo', attempts_of_go hgo,
        hstate, hrun, hattempts, hadvance]
      exact ⟨rfl, rfl⟩
    · have hstop' : ((advance host').run (s.map f)).result ≠ .ok none := by
        rw [hadvance]
        exact hgo
      rw [run_runFor_of_stop hstop', run_runFor_of_stop hgo, attempts_of_stop hstop',
        attempts_of_stop hgo]
      exact ⟨hadvance, rfl⟩

end Alike

/-! ## Runs before a viewer -/

variable {change : Nat → Tick → Memory → Memory} {v : Hosted Viewer} {m n : Nat}

/-- A step before a viewer fails and is not shown, or it is shown and halts, or ends the run, or
does neither. -/
theorem advance_cases (change : Nat → Tick → Memory → Memory) (v : Hosted Viewer) :
    let a := (advance (Viewer.host change)).run v
    (∃ e, a.result = .error e ∧ v.cpu.shown = none ∧ a.state.host = v.host) ∨
    (∃ t, a.result = .ok (if t.1.outcome.halted then some .halted
        else if v.host.left = 1 then some .cancelled else none) ∧
      v.cpu.shown = some t ∧ a.state.host = ⟨v.host.seen ++ [t], v.host.left - 1⟩) := by
  intro a
  rcases hstep : step.run v.cpu with ⟨events, e | out, c⟩
  · have ha : a = _ := run_advance_of_error hstep
    rw [ha]
    exact .inl ⟨e, rfl, by rw [shown, hstep], rfl⟩
  · have ha : a = _ := run_advance_of_ok hstep
    rw [ha]
    refine .inr ⟨(c.tick out, c.memory), ?_, by rw [shown, hstep], rfl⟩
    by_cases hl : v.host.left = 1 <;> simp [Viewer.host, tick, hl]

theorem advance_of_go (h : ((advance (Viewer.host change)).run v).result = .ok none) :
    ∃ t, v.cpu.shown = some t ∧ t.1.outcome.halted = false ∧ v.host.left ≠ 1 ∧
      ((advance (Viewer.host change)).run v).state.host =
        ⟨v.host.seen ++ [t], v.host.left - 1⟩ := by
  rcases advance_cases change v with ⟨e, hresult, -⟩ | ⟨t, hresult, hshown, hhost⟩
  · rw [h] at hresult
    cases hresult
  · rw [h] at hresult
    refine ⟨t, hshown, ?_, ?_, hhost⟩
    · refine Bool.eq_false_iff.2 fun hhalted => ?_
      simp [hhalted] at hresult
    · intro hl
      simp [hl] at hresult
      split at hresult <;> cases hresult

theorem left_of_cancelled
    (h : ((advance (Viewer.host change)).run v).result = .ok (some .cancelled)) :
    v.host.left = 1 ∧ ((advance (Viewer.host change)).run v).state.host.left = 0 ∧
      ((advance (Viewer.host change)).run v).state.host.seen.length =
        v.host.seen.length + 1 := by
  rcases advance_cases change v with ⟨e, hresult, -⟩ | ⟨t, hresult, -, hhost⟩
  · rw [h] at hresult
    cases hresult
  · rw [h] at hresult
    have hl : v.host.left = 1 := by
      refine Decidable.byContradiction fun hl => ?_
      simp [hl] at hresult
    exact ⟨hl, by rw [hhost, hl], by rw [hhost, List.length_append]; rfl⟩

/-- The viewer sees the steps that succeed, each once and in order, and no step that fails. -/
theorem seen_runFor (change : Nat → Tick → Memory → Memory) (k : Nat) (v : Hosted Viewer) :
    ((runFor (Viewer.host change) k).run v).state.host.seen =
      v.host.seen ++ (attempts (Viewer.host change) k v).filterMap shown := by
  induction k generalizing v with
  | zero => exact (List.append_nil _).symm
  | succ k ih =>
    by_cases hgo : ((advance (Viewer.host change)).run v).result = .ok none
    · obtain ⟨t, hshown, -, -, hhost⟩ := advance_of_go hgo
      rw [run_runFor_of_go hgo, attempts_of_go hgo, List.filterMap_cons_some hshown, ih, hhost,
        List.append_assoc]
      rfl
    · rw [run_runFor_of_stop hgo, attempts_of_stop hgo]
      rcases advance_cases change v with ⟨e, -, hshown, hhost⟩ | ⟨t, -, hshown, hhost⟩
      · rw [hhost, List.filterMap_cons_none hshown]
        exact (List.append_nil _).symm
      · rw [hhost, List.filterMap_cons_some hshown]
        rfl

/-- A run ends as halted if it sees a step that halts, even if the viewer ends it there. -/
theorem result_runFor_eq_halted_iff (change : Nat → Tick → Memory → Memory) (k : Nat)
    (v : Hosted Viewer) :
    ((runFor (Viewer.host change) k).run v).result = .ok (some .halted) ↔
      ∃ t ∈ (attempts (Viewer.host change) k v).filterMap shown, t.1.outcome.halted = true := by
  induction k generalizing v with
  | zero => exact iff_of_false nofun (by simp [attempts])
  | succ k ih =>
    by_cases hgo : ((advance (Viewer.host change)).run v).result = .ok none
    · obtain ⟨t, hshown, hhalted, -⟩ := advance_of_go hgo
      rw [run_runFor_of_go hgo, attempts_of_go hgo, List.filterMap_cons_some hshown]
      simp [ih, hhalted]
    · rw [run_runFor_of_stop hgo, attempts_of_stop hgo]
      rcases advance_cases change v with ⟨e, hresult, hshown, -⟩ | ⟨t, hresult, hshown, -⟩
      · rw [hresult, List.filterMap_cons_none hshown]
        exact iff_of_false nofun (by simp)
      · rw [hresult, List.filterMap_cons_some hshown]
        cases hhalted : t.1.outcome.halted
        · by_cases hl : v.host.left = 1 <;> simp [hl, hhalted]
        · simp [hhalted]

/-- A run ends after the ticks that the viewer asks for, or before. The viewer is the one that ends
it after exactly these ticks. -/
theorem result_runFor_left (change : Nat → Tick → Memory → Memory) (h : v.host.left = m + 1) :
    let o := (runFor (Viewer.host change) (m + 1)).run v
    o.result ≠ .ok none ∧ (o.result = .ok (some .cancelled) →
      o.state.host.left = 0 ∧ o.state.host.seen.length = v.host.seen.length + (m + 1)) := by
  induction m generalizing v with
  | zero =>
    have hstop : ((advance (Viewer.host change)).run v).result ≠ .ok none := fun hgo => by
      obtain ⟨-, -, -, hl, -⟩ := advance_of_go hgo
      exact hl h
    rw [run_runFor_of_stop hstop]
    exact ⟨hstop, fun hc => (left_of_cancelled hc).2⟩
  | succ m ih =>
    by_cases hgo : ((advance (Viewer.host change)).run v).result = .ok none
    · obtain ⟨t, -, -, -, hhost⟩ := advance_of_go hgo
      rw [run_runFor_of_go hgo]
      obtain ⟨hended, hcancelled⟩ := ih (by rw [hhost, h]; rfl)
      refine ⟨hended, fun hc => ⟨(hcancelled hc).1, (hcancelled hc).2.trans ?_⟩⟩
      rw [hhost, List.length_append, List.length_singleton]
      omega
    · rw [run_runFor_of_stop hgo]
      refine ⟨hgo, fun hc => ?_⟩
      have hl := (left_of_cancelled hc).1
      omega

/-- An outcome as it had been if the viewer had asked for more ticks. -/
def prolonged (n : Nat) (o : Outcome (Hosted Viewer) CpuError (Option StopReason)) :
    Outcome (Hosted Viewer) CpuError (Option StopReason) where
  events := o.events
  result :=
    match o.result with
    | .ok (some .cancelled) => .ok none
    | r => r
  state := o.state.more n

theorem result_prolonged_of_ne {o : Outcome (Hosted Viewer) CpuError (Option StopReason)}
    (h : o.result ≠ .ok (some .cancelled)) (n : Nat) : (prolonged n o).result = o.result := by
  unfold prolonged
  dsimp only
  split
  · next hc => exact absurd hc h
  · rfl

theorem run_advance_more (change : Nat → Tick → Memory → Memory) (v : Hosted Viewer)
    (hl : 1 ≤ v.host.left) (hn : 1 ≤ n) :
    (advance (Viewer.host change)).run (v.more n) =
      prolonged n ((advance (Viewer.host change)).run v) := by
  rcases hstep : step.run v.cpu with ⟨events, e | out, c⟩
  · have hmore : step.run (v.more n).cpu = _ := hstep
    rw [run_advance_of_error hmore, run_advance_of_error hstep]
    rfl
  · have hmore : step.run (v.more n).cpu = _ := hstep
    have hleft : v.host.left + n - 1 = v.host.left - 1 + n := by omega
    have hne : v.host.left + n ≠ 1 := by omega
    have hn0 : n ≠ 0 := by omega
    rw [run_advance_of_ok hmore, run_advance_of_ok hstep]
    simp only [prolonged, Viewer.host, Hosted.more, hleft]
    cases out.halted <;> by_cases h : v.host.left = 1 <;> simp [h, hne, hn0]

/-- The step with which a run ends is the same, and ends the run too unless it was the viewer that
ended it. -/
theorem run_runFor_more_of_stop (h : v.host.left = m + 1) (hn : 1 ≤ n)
    (hstop : ((advance (Viewer.host change)).run v).result ≠ .ok none) :
    (runFor (Viewer.host change) (m + 1)).run (v.more n) =
        prolonged n ((runFor (Viewer.host change) (m + 1)).run v) ∧
      attempts (Viewer.host change) (m + 1) (v.more n) =
        attempts (Viewer.host change) (m + 1) v := by
  have hmore := run_advance_more change v (by omega) hn
  rw [run_runFor_of_stop hstop, attempts_of_stop hstop]
  by_cases hc : ((advance (Viewer.host change)).run v).result = .ok (some .cancelled)
  · have hgo : ((advance (Viewer.host change)).run (v.more n)).result = .ok none := by
      rw [hmore, prolonged, hc]
    obtain rfl : m = 0 := by
      have hl := (left_of_cancelled hc).1
      omega
    -- The step was the last of the `m + 1`, so that going on means zero steps more.
    rw [run_runFor_of_go hgo, attempts_of_go hgo]
    refine ⟨?_, rfl⟩
    rw [hmore]
    show (⟨_ ++ [], .ok none, _⟩ : Outcome (Hosted Viewer) CpuError (Option StopReason)) = _
    rw [List.append_nil, prolonged, hc]
    rfl
  · have hstop' : ((advance (Viewer.host change)).run (v.more n)).result ≠ .ok none := by
      rwa [hmore, result_prolonged_of_ne hc]
    rw [run_runFor_of_stop hstop', attempts_of_stop hstop']
    exact ⟨hmore, rfl⟩

/-- Up to the point where the viewer would end the run, a viewer that asks for more gets the
same. -/
theorem run_runFor_more (change : Nat → Tick → Memory → Memory) (h : v.host.left = m + 1)
    (hn : 1 ≤ n) :
    (runFor (Viewer.host change) (m + 1)).run (v.more n) =
        prolonged n ((runFor (Viewer.host change) (m + 1)).run v) ∧
      attempts (Viewer.host change) (m + 1) (v.more n) =
        attempts (Viewer.host change) (m + 1) v := by
  induction m generalizing v with
  | zero =>
    refine run_runFor_more_of_stop h hn fun hgo => ?_
    obtain ⟨-, -, -, hl, -⟩ := advance_of_go hgo
    exact hl h
  | succ m ih =>
    by_cases hgo : ((advance (Viewer.host change)).run v).result = .ok none
    · have hmore := run_advance_more change v (by omega) hn
      have hgo' : ((advance (Viewer.host change)).run (v.more n)).result = .ok none := by
        rw [hmore, prolonged, hgo]
      obtain ⟨t, -, -, -, hhost⟩ := advance_of_go hgo
      have hleft : ((advance (Viewer.host change)).run v).state.host.left = m + 1 := by
        rw [hhost, h]
        rfl
      have hstate : ((advance (Viewer.host change)).run (v.more n)).state =
          ((advance (Viewer.host change)).run v).state.more n := by
        rw [hmore]
        rfl
      obtain ⟨hrun, hattempts⟩ := ih hleft
      rw [run_runFor_of_go hgo', run_runFor_of_go hgo, attempts_of_go hgo', attempts_of_go hgo,
        hstate, hrun, hattempts, hmore]
      exact ⟨rfl, rfl⟩
    · exact run_runFor_more_of_stop h hn hgo

/-- If it was the viewer that ended the run, the longer run goes on from there. -/
theorem run_runFor_of_cancelled (change : Nat → Tick → Memory → Memory)
    (h : v.host.left = m + 1) (hn : 1 ≤ n) :
    let host := Viewer.host change
    let first := (runFor host (m + 1)).run v
    let resumed : Hosted Viewer := ⟨⟨first.state.host.seen, n⟩, first.state.cpu⟩
    let second := (runFor host n).run resumed
    first.result = .ok (some .cancelled) →
      (runFor host (m + 1 + n)).run (v.more n) =
          ⟨first.events ++ second.events, second.result, second.state⟩ ∧
        attempts host (m + 1 + n) (v.more n) =
          attempts host (m + 1) v ++ attempts host n resumed := by
  intro host first resumed second hc
  obtain ⟨hrun, hattempts⟩ := run_runFor_more change h hn
  have hgoing : ((runFor host (m + 1)).run (v.more n)).result = .ok none := by
    rw [hrun, prolonged, hc]
  have hstate : ((runFor host (m + 1)).run (v.more n)).state = resumed := by
    rw [hrun]
    show Hosted.more n first.state = resumed
    rw [Hosted.more, ((result_runFor_left change h).2 hc).1, Nat.zero_add]
  constructor
  · rw [run_runFor_add_of_going hgoing, hstate, hrun]
    rfl
  · rw [attempts_add, hgoing, hstate, hattempts]

/-- If the run ended on its own, the longer run ends there too. -/
theorem run_runFor_of_not_cancelled (change : Nat → Tick → Memory → Memory)
    (h : v.host.left = m + 1) (hn : 1 ≤ n) :
    let host := Viewer.host change
    let first := (runFor host (m + 1)).run v
    first.result ≠ .ok (some .cancelled) →
      (runFor host (m + 1 + n)).run (v.more n) = ⟨first.events, first.result, first.state.more n⟩ ∧
        attempts host (m + 1 + n) (v.more n) = attempts host (m + 1) v := by
  intro host first hc
  obtain ⟨hrun, hattempts⟩ := run_runFor_more change h hn
  have hresult : (prolonged n first).result = first.result := result_prolonged_of_ne hc n
  have hended : ((runFor host (m + 1)).run (v.more n)).result ≠ .ok none := by
    rw [hrun, hresult]
    exact (result_runFor_left change h).1
  constructor
  · rw [run_runFor_add_of_ended hended, hrun, ← hresult]
    rfl
  · rw [attempts_add, hattempts]
    split
    · next hnone => exact absurd hnone hended
    · exact List.append_nil _

/-- **A run that is cut and resumed is the run that was not cut.** A viewer that ends a run after
`m` ticks and the next one after `n` more sees what one that ends it after `m + n` ticks sees: the
ticks, the events, the steps from the same processors, the result and the processor at the end. If
the first run ends on its own, so does the long one, at the same step. In every run the viewer sees
each step that succeeds once, and none that fails, and the run ends as halted exactly if it sees a
step that halts, even if the viewer ends it there. -/
theorem run_cut_and_resumed (change : Nat → Tick → Memory → Memory) (c : Cpu)
    (seen : List (Tick × Memory)) (m n : Nat) (hm : 1 ≤ m) (hn : 1 ≤ n) :
    let host := Viewer.host change
    ∃ tried first triedWhole whole,
      RunsTo host ⟨⟨seen, m⟩, c⟩ tried first ∧
      RunsTo host ⟨⟨seen, m + n⟩, c⟩ triedWhole whole ∧
      (first.result = .ok (some .cancelled) →
        first.state.host.seen.length = seen.length + m ∧
        ∃ triedSecond second,
          RunsTo host ⟨⟨first.state.host.seen, n⟩, first.state.cpu⟩ triedSecond second ∧
          whole.result = second.result ∧ whole.state.cpu = second.state.cpu ∧
          whole.state.host.seen = second.state.host.seen ∧
          whole.events = first.events ++ second.events ∧ triedWhole = tried ++ triedSecond) ∧
      (first.result ≠ .ok (some .cancelled) →
        whole.result = first.result ∧ whole.state.cpu = first.state.cpu ∧
        whole.state.host.seen = first.state.host.seen ∧
        whole.events = first.events ∧ triedWhole = tried) ∧
      ∀ v tried o, RunsTo host v tried o →
        o.state.host.seen = v.host.seen ++ tried.filterMap shown ∧
        (o.result = .ok (some .halted) ↔
          ∃ t ∈ tried.filterMap shown, t.1.outcome.halted = true) := by
  intro host
  obtain ⟨m, rfl⟩ := Nat.exists_eq_add_of_le' hm
  have hleft : (⟨⟨seen, m + 1⟩, c⟩ : Hosted Viewer).host.left = m + 1 := rfl
  refine ⟨_, _, _, _, ⟨m + 1, rfl, (result_runFor_left change hleft).1, rfl⟩,
    ⟨m + 1 + n, rfl, ?ended, rfl⟩, fun hc => ?cut, fun hc => ?own, ?seen⟩
  case ended =>
    rw [Nat.add_right_comm]
    exact (result_runFor_left change rfl).1
  case cut =>
    obtain ⟨hrun, hattempts⟩ := run_runFor_of_cancelled change hleft hn hc
    obtain ⟨n, rfl⟩ := Nat.exists_eq_add_of_le' hn
    refine ⟨((result_runFor_left change hleft).2 hc).2, _, _,
      ⟨n + 1, rfl, (result_runFor_left change rfl).1, rfl⟩, ?_⟩
    have hmore : (⟨⟨seen, m + 1 + (n + 1)⟩, c⟩ : Hosted Viewer) =
      Hosted.more (n + 1) ⟨⟨seen, m + 1⟩, c⟩ := rfl
    rw [hmore, hrun, hattempts]
    exact ⟨rfl, rfl, rfl, rfl, rfl⟩
  case own =>
    obtain ⟨hrun, hattempts⟩ := run_runFor_of_not_cancelled change hleft hn hc
    have hmore : (⟨⟨seen, m + 1 + n⟩, c⟩ : Hosted Viewer) =
      Hosted.more n ⟨⟨seen, m + 1⟩, c⟩ := rfl
    rw [hmore, hrun, hattempts]
    exact ⟨rfl, rfl, rfl, rfl, rfl⟩
  case seen =>
    rintro v tried _ ⟨k, rfl, -, rfl⟩
    exact ⟨seen_runFor change k v, result_runFor_eq_halted_iff change k v⟩

/-- `LDA $10` twice and `BRK`, while the host writes to `$10`. The host ends the first run after one
step and would end the second one after two more, where it halts. -/
theorem run_cut_and_resumed_at_halt :
    let memory := (Memory.blank .flat).load 0x0300 [0xA5, 0x10, 0xA5, 0x10, 0x00]
    let c := { ofMemory memory {} with state := .running, pc := 0x0300 }
    let host := Viewer.host fun i _ m => m.load 0x0010 [UInt8.ofNat i + 1]
    1 ≤ 1 ∧ 1 ≤ 2 ∧ ∃ tried first triedSecond second,
      RunsTo host ⟨⟨[], 1⟩, c⟩ tried first ∧ first.result = .ok (some .cancelled) ∧
      RunsTo host ⟨⟨first.state.host.seen, 2⟩, first.state.cpu⟩ triedSecond second ∧
      second.result = .ok (some .halted) ∧ second.state.cpu.a = 1 := by
  intro memory c host
  have hm : 1 ≤ 1 := by decide
  have hn : 1 ≤ 2 := by decide
  obtain ⟨tried, first, triedWhole, whole, hfirst, hwhole, hcut, -⟩ :=
    run_cut_and_resumed _ c [] 1 2 hm hn
  have hcancelled : first.result = .ok (some .cancelled) := by
    have hrun : RunsTo host ⟨⟨[], 1⟩, c⟩ _ ((runFor host 1).run ⟨⟨[], 1⟩, c⟩) :=
      ⟨1, rfl, by decide +kernel, rfl⟩
    rw [(hrun.unique hfirst).1]
    decide +kernel
  obtain ⟨-, triedSecond, second, hsecond, hresult, hcpu, -⟩ := hcut hcancelled
  have hrun : RunsTo host ⟨⟨[], 3⟩, c⟩ _ ((runFor host 3).run ⟨⟨[], 3⟩, c⟩) :=
    ⟨3, rfl, by decide +kernel, rfl⟩
  refine ⟨hm, hn, tried, first, triedSecond, second, hfirst, hcancelled, hsecond, ?_, ?_⟩
  · rw [← hresult, (hrun.unique hwhole).1]
    decide +kernel
  · rw [← hcpu, (hrun.unique hwhole).1]
    decide +kernel

end Cpu

end NesCore
