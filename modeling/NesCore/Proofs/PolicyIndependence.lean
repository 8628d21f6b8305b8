import NesCore.Proofs.Comparison
import NesCore.Proofs.Lifecycle
import NesCore.Proofs.Recorded
import NesCore.Proofs.Schedule

/-!
# Programs that survive the fault policy

The policies differ in what they make of `$2000-$401F` and agree on every other address
(`target_of_not_isIo`). The fault policy refuses every access to that range, so a run under it that
no refusal ends has stayed outside, and is the same run under any policy. A halted processor looks
at its opcode past the policy; it has fetched it before, so that address is not in the range either
(`HaltsOutside`).

Main statement: `policy_independence`.
-/

namespace NesCore

/-! ## Outside the range -/

/-- Outside their range the policies agree. -/
theorem IoPolicy.target_of_not_isIo (p q : IoPolicy) {a : UInt16} (h : ¬ IsIo a) :
    p.target a = q.target a := by
  have hlow : a < 0x2000 ↔ a.toNat < 0x2000 := UInt16.lt_iff_toNat_lt
  have hvideo : a ≤ 0x3FFF ↔ a.toNat ≤ 0x3FFF := UInt16.le_iff_toNat_le
  have hfold (r : IoPolicy) : r.fold a = if a < 0x2000 then a &&& 0x07FF else a := by
    rw [isIo_iff_toNat] at h
    unfold fold
    simp only [hlow, hvideo]
    split_ifs with h₁ h₂
    · rfl
    · omega
    · rfl
  rw [target_eq, target_eq, if_neg (p.not_refuses_of_not_isIo h),
    if_neg (p.not_swallows_of_not_isIo h), if_neg (q.not_refuses_of_not_isIo h),
    if_neg (q.not_swallows_of_not_isIo h), hfold, hfold]

namespace Memory

/-- The memory under another policy. -/
def withPolicy (m : Memory) (policy : IoPolicy) : Memory := { m with policy := policy }

variable {a : UInt16} (h : ¬ IsIo a) (m : Memory) (policy : IoPolicy)

include h

theorem read_withPolicy : (m.withPolicy policy).read a = m.read a := by
  unfold read
  rw [m.policy.target_of_not_isIo policy h]
  rfl

theorem peek_withPolicy : (m.withPolicy policy).peek a = m.peek a := by
  rw [peek_eq_read, peek_eq_read, read_withPolicy h]

theorem write_withPolicy (v : UInt8) :
    (m.withPolicy policy).write a v = (m.write a v).map fun n => n.withPolicy policy := by
  have hprotected : (m.withPolicy policy).isProtected a = m.isProtected a := rfl
  have hpolicy : (m.withPolicy policy).policy = policy := rfl
  unfold write
  rw [hprotected, hpolicy, m.policy.target_of_not_isIo policy h]
  cases m.isProtected a with
  | true => rfl
  | false => cases policy.target a <;> rfl

end Memory

namespace Bus

variable {a : UInt16} (h : ¬ IsIo a) (m : Memory) (policy : IoPolicy)

include h

theorem run_read_withPolicy :
    (read a).run (m.withPolicy policy) =
      ((read a).run m).onState fun n => n.withPolicy policy := by
  rw [run_read, run_read, Memory.read_withPolicy h]
  rfl

theorem run_write_withPolicy (v : UInt8) :
    (write a v).run (m.withPolicy policy) =
      ((write a v).run m).onState fun n => n.withPolicy policy := by
  simp only [write, Memory.write_withPolicy h]
  cases m.write a v <;> rfl

end Bus

/-! ## Two policies -/

namespace Cpu

open NesCore.Action

variable {α : Type} {c d : Cpu} {policy : IoPolicy}

/-- The processor with its memory under another policy. -/
def withPolicy (c : Cpu) (policy : IoPolicy) : Cpu :=
  { c with memory := c.memory.withPolicy policy }

theorem run_onBus_withPolicy {x : Action Memory BusError α}
    (h : x.run (c.memory.withPolicy policy) =
      (x.run c.memory).onState fun n => n.withPolicy policy) :
    (onBus x).run (c.withPolicy policy) =
      ((onBus x).run c).onState fun s => s.withPolicy policy := by
  have hmemory : (c.withPolicy policy).memory = c.memory.withPolicy policy := rfl
  simp only [onBus, run_mapError, run_onPart, hmemory, h]
  rfl

/-- The fault policy compared with another one, until it refuses an access. -/
def faultAgainst (policy : IoPolicy) : Comparison where
  Related m check m' check' :=
    m.policy = .fault ∧ m' = m.withPolicy policy ∧ check' = check
  Stops e := ∃ source, e = .bus source
  shows _ := true

theorem rel_faultAgainst_iff :
    (faultAgainst policy).Rel c d ↔ c.memory.policy = .fault ∧ d = c.withPolicy policy := by
  constructor
  · rintro ⟨m, check, rfl, hfault, rfl, rfl⟩
    exact ⟨hfault, rfl⟩
  · rintro ⟨hfault, rfl⟩
    exact ⟨_, _, rfl, hfault, rfl, rfl⟩

/-- An access outside the range compares. -/
theorem matches_onBus {x : Action Memory BusError α} (h : (faultAgainst policy).Rel c d)
    (hx : x.run (c.memory.withPolicy policy) =
      (x.run c.memory).onState fun n => n.withPolicy policy)
    (hpolicy : (x.run c.memory).state.policy = c.memory.policy) :
    (faultAgainst policy).Matches (faultAgainst policy).Stops (onBus x) c d := by
  obtain ⟨hfault, rfl⟩ := rel_faultAgainst_iff.1 h
  right
  rw [run_onBus_withPolicy hx]
  exact ⟨rfl, rel_faultAgainst_iff.2 ⟨hpolicy.trans hfault, rfl⟩, rfl⟩

theorem isSound_faultAgainst (policy : IoPolicy) : (faultAgainst policy).IsSound where
  read {c d} a h := by
    by_cases hio : IsIo a
    · have hrefuses : c.memory.policy.Refuses a := ⟨(rel_faultAgainst_iff.1 h).1, hio⟩
      exact .inl ⟨_, ⟨_, rfl⟩, by rw [run_read_of_refuses hrefuses]⟩
    · exact matches_onBus h (Bus.run_read_withPolicy hio _ _) rfl
  write {c d} a v h := by
    by_cases hio : IsIo a
    · have hrefuses : c.memory.policy.Refuses a := ⟨(rel_faultAgainst_iff.1 h).1, hio⟩
      exact .inl ⟨_, ⟨_, rfl⟩, by rw [result_write, if_pos hrefuses]⟩
    · refine matches_onBus h (Bus.run_write_withPolicy hio _ _ v) ?_
      rw [Bus.state_write, Memory.policy_written]
  checkWrap origin wrap h :=
    Comparison.matches_checkWrap h (by rw [(rel_faultAgainst_iff.1 h).2]; rfl) origin wrap

/-! ## Steps under the fault policy -/

/-- The fault policy holds, and a halted processor has halted where that policy accepts a read. -/
structure HaltsOutside (c : Cpu) : Prop where
  fault : c.memory.policy = .fault
  halted : c.state = .halted → ¬ IsIo c.pc

theorem not_refuses_of_step_ok {o : StepOutcome} (h : c.state = .running)
    (ho : (step.run c).result = .ok o) : ¬ c.memory.policy.Refuses c.fetchAddress := by
  intro hr
  have hd : ¬ c.terms.Grants (.read c.afterEntry.pc) := fun hg => hg (by rwa [pc_afterEntry])
  have hnext : c.terms.firstRefused c.afterEntry.nextDemands = some (.read c.afterEntry.pc) :=
    Terms.firstRefused_cons_of_not_grants hd _
  cases he : c.stepError? with
  | some e =>
    have herror := (result_step_eq_error_iff h).2 he
    rw [ho] at herror
    cases herror
  | none =>
    simp [stepError?, hnext] at he

theorem HaltsOutside.requests (h : c.HaltsOutside) (kinds : List Interrupt) :
    (c.requests kinds).HaltsOutside := by
  rw [requests_eq]
  exact ⟨h.fault, h.halted⟩

theorem HaltsOutside.step (h : c.HaltsOutside) : (step.run c).state.HaltsOutside := by
  have hpolicy : (Cpu.step.run c).state.memory.policy = .fault := by
    rw [(recorded_step c).1, Memory.policy_replay, h.fault]
  by_cases hs : c.state = .running
  · refine ⟨hpolicy, fun hhalted => ?_⟩
    cases hresult : (Cpu.step.run c).result with
    | error e =>
      rw [state_step_of_error hs hresult] at hhalted
      cases hhalted
    | ok o =>
      obtain ⟨hpc, -, hleft⟩ := state_of_step_ok hs hresult
      split at hleft
      · obtain ⟨-, -, hstop, -⟩ := hleft
        rw [hstop, hpc]
        exact fun hio => not_refuses_of_step_ok hs hresult ⟨h.fault, hio⟩
      · rw [hleft.2] at hhalted
        cases hhalted
  · rw [state_step_of_not_running hs]
    exact h

/-- A step that the fault policy does not end is the same under another policy. -/
theorem HaltsOutside.run_step_withPolicy (h : c.HaltsOutside) (policy : IoPolicy)
    (hbus : ∀ pc source, (Cpu.step.run c).result ≠ .error ⟨pc, .bus source⟩) :
    Cpu.step.run (c.withPolicy policy) =
      (Cpu.step.run c).onState fun s => s.withPolicy policy := by
  have hrel : (faultAgainst policy).Rel c (c.withPolicy policy) :=
    rel_faultAgainst_iff.2 ⟨h.fault, rfl⟩
  have hpeek (hs : c.state = .halted) :
      (c.withPolicy policy).memory.peek c.pc = c.memory.peek c.pc :=
    Memory.peek_withPolicy (h.halted hs) _ _
  rcases (isSound_faultAgainst policy).matches_step hrel hpeek with ⟨e, he, hresult⟩ | hagree
  · obtain ⟨source, hsource⟩ := he
    refine absurd hresult ?_
    obtain ⟨pc, fault⟩ := e
    rw [show fault = .bus source from hsource]
    exact hbus pc source
  · exact Outcome.eq_onState (hagree.events_eq fun _ => rfl) hagree.result
      (rel_faultAgainst_iff.1 hagree.state).2

/-! ## Runs -/

/-- A run that the fault policy does not end is the same under another policy. -/
theorem outcomes_withPolicy (h : c.HaltsOutside) (policy : IoPolicy) {schedule : Schedule}
    (hbus : ∀ o ∈ c.outcomes schedule, ∀ pc source, o.result ≠ .error ⟨pc, .bus source⟩) :
    (c.withPolicy policy).outcomes schedule =
      (c.outcomes schedule).map (Outcome.onState fun s => s.withPolicy policy) := by
  have hstarts := forall_mem_starts (P := HaltsOutside) (fun _ kinds hs => hs.requests kinds)
    (fun _ hs => hs.step) h schedule
  refine outcomes_map (f := fun s => s.withPolicy policy) (fun s kinds => ?_) fun s hs => ?_
  · rw [requests_eq, requests_eq]
    rfl
  · exact (hstarts s hs).run_step_withPolicy policy (hbus _ (List.mem_map_of_mem hs))

/-- **A program that survives the fault policy behaves the same under every policy.** If all steps
of a scheduled run succeed under the fault policy, or all but the last and the last is not refused
an access, then under any policy the run goes through the same steps: with the same results,
notices and bus accesses, and states that differ in the policy only. -/
theorem policy_independence (h : c.state = .running) (policy : IoPolicy) (schedule : Schedule) :
    let fault := (c.withPolicy .fault).outcomes schedule
    let other := (c.withPolicy policy).outcomes schedule
    ((∀ o ∈ fault, ∃ out, o.result = .ok out) →
      other = fault.map (Outcome.onState fun s => s.withPolicy policy)) ∧
    (∀ before last e, fault = before ++ [last] → (∀ o ∈ before, ∃ out, o.result = .ok out) →
      last.result = .error e → (∀ source, e.fault ≠ .bus source) →
      other = fault.map (Outcome.onState fun s => s.withPolicy policy)) := by
  intro fault other
  have houtside : (c.withPolicy .fault).HaltsOutside := by
    refine ⟨rfl, fun hhalted => ?_⟩
    have hstate : c.state = .halted := hhalted
    rw [h] at hstate
    cases hstate
  have hsame (hbus : ∀ o ∈ fault, ∀ pc source, o.result ≠ .error ⟨pc, .bus source⟩) :
      other = fault.map (Outcome.onState fun s => s.withPolicy policy) :=
    outcomes_withPolicy houtside policy hbus
  have hfine {o : Outcome Cpu CpuError StepOutcome} (ho : ∃ out, o.result = .ok out)
      (pc : UInt16) (source : BusError) : o.result ≠ .error ⟨pc, .bus source⟩ := by
    obtain ⟨out, hout⟩ := ho
    rw [hout]
    exact fun he => nomatch he
  refine ⟨fun hok => hsame fun o ho => hfine (hok o ho), ?_⟩
  intro before last e hsplit hok hlast hbus
  refine hsame fun o ho pc source he => ?_
  rw [hsplit] at ho
  rcases List.mem_append.1 ho with ho | ho
  · exact hfine (hok o ho) pc source he
  · rw [List.mem_singleton.1 ho, hlast] at he
    cases he
    exact hbus source rfl

/-- `LDA #$01`, then an NMI whose handler stores to work memory, then an undocumented opcode. -/
theorem policy_independence_until_undocumented :
    let memory := ((Memory.blank .flat).load 0x0300 [0xA9, 0x01, 0xEA, 0x8D, 0x00, 0x0A, 0x02]).load
      0xFFFA [0x03, 0x03]
    let c := { ofMemory memory {} with state := .running, pc := 0x0300 }
    c.state = .running ∧
      ((c.withPolicy .silent).outcomes [[], [.nmi], []]).map Outcome.result =
        [.ok ⟨0x0300, 0xA9, 2, false, none⟩, .ok ⟨0x0303, 0x8D, 11, false, some .nmi⟩,
          .error ⟨0x0306, .illegalOpcode 0x02⟩] := by
  intro memory c
  have h : c.state = .running := rfl
  have hresults : ((c.withPolicy .fault).outcomes [[], [.nmi], []]).map Outcome.result =
      [.ok ⟨0x0300, 0xA9, 2, false, none⟩, .ok ⟨0x0303, 0x8D, 11, false, some .nmi⟩,
        .error ⟨0x0306, .illegalOpcode 0x02⟩] := by
    decide +kernel
  refine ⟨h, ?_⟩
  -- What each of the three steps comes to.
  obtain ⟨hfirst, hsecond, hthird⟩ : _ ∧ _ ∧ _ := by
    simpa [outcomes, starts] using hresults
  rw [(policy_independence h .silent [[], [.nmi], []]).2 [_, _] _ _ rfl ?_ hthird ?_, List.map_map]
  · exact hresults
  · exact List.forall_mem_cons.2 ⟨⟨_, hfirst⟩, List.forall_mem_singleton.2 ⟨_, hsecond⟩⟩
  · exact fun _ he => nomatch he

end Cpu

end NesCore
