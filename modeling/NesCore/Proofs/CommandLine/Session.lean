import NesCore.CommandLine.Session
import NesCore.Proofs.CutRuns

/-!
# A session in stretches

A program writes the lines of a stretch and goes on with the session in another one, until the
session ends (`Stretch.Exits`). How many steps a stretch may take makes no difference: stretches add
up (`Session.proceed_add`), so a session that ends is a single stretch that is long enough
(`Stretch.exits_iff_of_ok`).
-/

namespace NesCore.CommandLine

open Cpu NesCore.Action

/-! ## Following a session -/

/-- From a stretch on the program exits with a code, after steps from these processors and with
these lines of output and log, if it goes on with up to `size` steps at a time. -/
inductive Stretch.Exits (size : Nat) :
    Stretch → List Cpu → List String → List String → UInt8 → Prop
  | last {s : Stretch} {code : UInt8} (h : s.next = .error code) :
    Exits size s [] s.output s.log code
  | goOn {s : Stretch} {session : Session} {tried : List Cpu} {output log : List String}
    {code : UInt8} (h : s.next = .ok session)
    (rest : Exits size (session.proceed size) tried output log code) :
    Exits size s (attempts (host session.options) size session.machine ++ tried)
      (s.output ++ output) (s.log ++ log) code

theorem Stretch.Exits.unique {size : Nat} {st : Stretch} {tried tried' : List Cpu}
    {output output' log log' : List String} {code code' : UInt8}
    (h : st.Exits size tried output log code) (h' : st.Exits size tried' output' log' code') :
    tried' = tried ∧ output' = output ∧ log' = log ∧ code' = code := by
  induction h generalizing tried' output' log' with
  | last hnext =>
    cases h' with
    | last hnext' =>
      rw [hnext] at hnext'
      exact ⟨rfl, rfl, rfl, (Except.error.inj hnext').symm⟩
    | goOn hnext' _ =>
      rw [hnext] at hnext'
      cases hnext'
  | goOn hnext rest ih =>
    cases h' with
    | last hnext' =>
      rw [hnext] at hnext'
      cases hnext'
    | goOn hnext' rest' =>
      rw [hnext] at hnext'
      cases hnext'
      obtain ⟨rfl, rfl, rfl, rfl⟩ := ih rest'
      exact ⟨rfl, rfl, rfl, rfl⟩

namespace Session

variable {s t : Session} {m n size : Nat} {tried : List Cpu} {output log : List String}
  {code : UInt8}

/-- The run of a session for at most the given number of steps. -/
abbrev runFor (s : Session) (n : Nat) : Outcome (Hosted Progress) CpuError (Option StopReason) :=
  (Cpu.runFor (host s.options) n).run s.machine

/-- The processors from which a session makes its steps. -/
abbrev tries (s : Session) (n : Nat) : List Cpu := attempts (host s.options) n s.machine

/-- The session that goes on after a run. -/
def resumed (s : Session) (h : Hosted Progress) : Session :=
  { s with machine := ⟨{ h.host with pending := [] }, h.cpu⟩ }

/-- The trace lines of a run, in order. -/
abbrev lines (o : Outcome (Hosted Progress) CpuError (Option StopReason)) : List String :=
  o.state.host.pending.reverse

/-- The log lines of a run. -/
abbrev logged (s : Session) (o : Outcome (Hosted Progress) CpuError (Option StopReason)) :
    List String :=
  o.notices.filterMap (noticeLine s.options.debug)

theorem proceed_of_going (h : (s.runFor n).result = .ok none) :
    s.proceed n =
      ⟨lines (s.runFor n), s.logged (s.runFor n), .ok (s.resumed (s.runFor n).state)⟩ := by
  unfold proceed
  dsimp only
  rw [h]
  rfl

theorem proceed_of_stopped {reason : StopReason} (h : (s.runFor n).result = .ok (some reason)) :
    s.proceed n =
      ⟨lines (s.runFor n), s.logged (s.runFor n) ++
        [summary reason (s.runFor n).state.host.steps (s.runFor n).state.cpu], .error 0⟩ := by
  unfold proceed
  dsimp only
  rw [h]

theorem proceed_of_error {e : CpuError} (h : (s.runFor n).result = .error e) :
    s.proceed n =
      ⟨lines (s.runFor n), s.logged (s.runFor n) ++
        [logLine "ERROR" s!"emulation stopped: {causes (.cpu e)}"],
        .error (exitCode (.cpu e))⟩ := by
  unfold proceed
  dsimp only
  rw [h]

theorem output_proceed (s : Session) (n : Nat) : (s.proceed n).output = lines (s.runFor n) := by
  unfold proceed
  dsimp only
  split <;> rfl

theorem next_eq_ok_iff :
    (s.proceed n).next = .ok t ↔
      (s.runFor n).result = .ok none ∧ t = s.resumed (s.runFor n).state := by
  rcases h : (s.runFor n).result with e | _ | reason
  · simp [proceed_of_error h]
  · simp [proceed_of_going h, eq_comm]
  · simp [proceed_of_stopped h]

/-! ## Sessions that run alike -/

/-- The log of a beginning shows nothing of the trace and its colour. -/
theorem log_begin_congr (options options' : Options) (file : Except String (List UInt8))
    (hpath : options'.romPath = options.romPath) (hdebug : options'.debug = options.debug)
    (hconfig : consoleConfig options' = consoleConfig options) :
    (begin options' file).log = (begin options file).log := by
  unfold begin refused
  rw [hpath, hdebug, hconfig]
  cases file with
  | error reason => rfl
  | ok data =>
    dsimp only
    cases Cartridge.ofBytes data with
    | error e => rfl
    | ok c =>
      dsimp only
      cases (Console.start c (consoleConfig options)).result <;> rfl

/-- Sessions whose runs are two views of one run keep the same log and end in the same way. -/
theorem log_and_next_of_alike {η : Type} {f g : η → Progress}
    {o : Outcome (Hosted η) CpuError (Option StopReason)}
    (hs : s.runFor n = o.onState (Hosted.map f)) (ht : t.runFor n = o.onState (Hosted.map g))
    (hsteps : ∀ h, (g h).steps = (f h).steps) (hdebug : t.options.debug = s.options.debug) :
    (t.proceed n).log = (s.proceed n).log ∧
      ∀ code, (t.proceed n).next = .error code ↔ (s.proceed n).next = .error code := by
  have hlogged : t.logged (t.runFor n) = s.logged (s.runFor n) := by
    rw [hs, ht, logged, logged, hdebug]
    rfl
  have hcpu : (t.runFor n).state.cpu = (s.runFor n).state.cpu := by
    rw [hs, ht]
    rfl
  have hcount : (t.runFor n).state.host.steps = (s.runFor n).state.host.steps := by
    rw [hs, ht]
    exact hsteps o.state.host
  have hresult : (t.runFor n).result = (s.runFor n).result := by
    rw [hs, ht]
    rfl
  rcases hr : (s.runFor n).result with e | _ | reason
  · rw [proceed_of_error hr, proceed_of_error (hresult.trans hr), hlogged]
    exact ⟨rfl, fun _ => Iff.rfl⟩
  · rw [proceed_of_going hr, proceed_of_going (hresult.trans hr), hlogged]
    exact ⟨rfl, fun _ => iff_of_false nofun nofun⟩
  · rw [proceed_of_stopped hr, proceed_of_stopped (hresult.trans hr), hlogged, hcpu, hcount]
    exact ⟨rfl, fun _ => Iff.rfl⟩

/-! ## Stretches add up -/

/-- What is pending waits behind what comes later. -/
def Progress.behind (pending : List String) (p : Progress) : Progress :=
  { p with pending := p.pending ++ pending }

/-- A host adds to what is pending and does not look at it. -/
theorem host_behind (options : Options) (pending : List String) (p : Progress) (tick : Tick)
    (memory : Memory) :
    host options (Progress.behind pending p) tick memory =
      ⟨Progress.behind pending (host options p tick memory).host,
        (host options p tick memory).memory, (host options p tick memory).goOn⟩ := by
  unfold host Progress.behind
  dsimp only
  split_ifs <;> rfl

/-- Two stretches of a session are one of the sum of their steps. -/
theorem proceed_add (h : (s.proceed m).next = .ok t) (n : Nat) :
    s.proceed (m + n) =
        { output := (s.proceed m).output ++ (t.proceed n).output
          log := (s.proceed m).log ++ (t.proceed n).log
          next := (t.proceed n).next } ∧
      s.tries (m + n) = s.tries m ++ t.tries n := by
  obtain ⟨hgoing, rfl⟩ := next_eq_ok_iff.1 h
  let first := s.runFor m
  let last := (s.resumed first.state).runFor n
  have hstate : first.state =
      (s.resumed first.state).machine.map (Progress.behind first.state.host.pending) := rfl
  obtain ⟨hlast, htries⟩ := run_runFor_map (host_behind s.options first.state.host.pending) n
    (s.resumed first.state).machine
  rw [← hstate] at hlast htries
  have hsum : s.runFor (m + n) = ⟨first.events ++ last.events, last.result,
      last.state.map (Progress.behind first.state.host.pending)⟩ := by
    have hadd : s.runFor (m + n) =
        let later := (Cpu.runFor (host s.options) n).run first.state
        ⟨first.events ++ later.events, later.result, later.state⟩ :=
      run_runFor_add_of_going hgoing n
    rw [hadd, hlast]
    rfl
  have hlines : lines (s.runFor (m + n)) = lines first ++ lines last := by
    rw [hsum]
    exact List.reverse_append
  have hlogged : s.logged (s.runFor (m + n)) = s.logged first ++ s.logged last := by
    rw [hsum]
    unfold logged Outcome.notices
    rw [List.filterMap_append, List.filterMap_append]
  have hresult : (s.runFor (m + n)).result = last.result := by rw [hsum]
  refine ⟨?_, ?_⟩
  · rw [proceed_of_going hgoing]
    rcases hr : last.result with e | _ | reason
    · rw [proceed_of_error (hresult.trans hr), proceed_of_error hr, hlines, hlogged,
        List.append_assoc]
      rfl
    · rw [proceed_of_going (hresult.trans hr), proceed_of_going hr, hlines, hlogged, hsum]
      rfl
    · rw [proceed_of_stopped (hresult.trans hr), proceed_of_stopped hr, hlines, hlogged, hsum,
        List.append_assoc]
      rfl
  · show attempts _ (m + n) _ = _
    rw [attempts_add, hgoing]
    exact congrArg (_ ++ ·) htries

/-! ## A session that ends is one stretch -/

theorem runFor_ne_of_error (h : (s.proceed n).next = .error code) :
    (s.runFor n).result ≠ .ok none := by
  intro hgoing
  rw [proceed_of_going hgoing] at h
  cases h

theorem exists_error_of_ne (h : (s.runFor n).result ≠ .ok none) :
    ∃ code, (s.proceed n).next = .error code := by
  rcases hr : (s.runFor n).result with e | _ | reason
  · exact ⟨_, by rw [proceed_of_error hr]⟩
  · exact absurd hr h
  · exact ⟨_, by rw [proceed_of_stopped hr]⟩

/-- A session that has ended stays as it is. -/
theorem proceed_of_ended (hm : (s.proceed m).next = .error code)
    (hn : (s.runFor n).result ≠ .ok none) :
    s.proceed n = s.proceed m ∧ s.tries n = s.tries m := by
  have hrun (k : Nat) (hk : (s.runFor k).result ≠ .ok none) :
      RunsTo (host s.options) s.machine (s.tries k) (s.runFor k) := ⟨k, rfl, hk, rfl⟩
  obtain ⟨hsame, htries⟩ := (hrun m (runFor_ne_of_error hm)).unique (hrun n hn)
  refine ⟨?_, htries⟩
  have hsame : (Cpu.runFor (host s.options) n).run s.machine =
      (Cpu.runFor (host s.options) m).run s.machine := hsame
  unfold proceed
  rw [hsame]

/-- What is written in stretches is written in a single one. -/
theorem exists_of_exits {st : Stretch} (h : st.Exits size tried output log code)
    (hst : st = s.proceed n) :
    ∃ k, s.proceed k = ⟨output, log, .error code⟩ ∧ s.tries k = s.tries n ++ tried := by
  induction h generalizing s n with
  | last h =>
    subst hst
    refine ⟨n, ?_, (List.append_nil _).symm⟩
    rw [← h]
  | goOn h rest ih =>
    subst hst
    obtain ⟨k, hk, htries⟩ := ih rfl
    obtain ⟨hadd, htriesAdd⟩ := proceed_add h k
    exact ⟨n + k, by rw [hadd, hk], by rw [htriesAdd, htries]⟩

/-- A session that ends is followed to its end, however short the stretches are. -/
theorem exits_of_proceed (hsize : 1 ≤ size) (k : Nat)
    (h : s.proceed k = ⟨output, log, .error code⟩) :
    ∃ tried, s.tries k = s.tries size ++ tried ∧
      (s.proceed size).Exits size tried output log code := by
  induction k using Nat.strongRecOn generalizing s output log with
  | ind k ih =>
    have hk : (s.proceed k).next = .error code := by rw [h]
    cases hnext : (s.proceed size).next with
    | error code' =>
      obtain ⟨hsame, htries⟩ := proceed_of_ended hk (runFor_ne_of_error hnext)
      refine ⟨[], by rw [htries, List.append_nil], ?_⟩
      have hlast : Stretch.Exits size _ _ _ _ _ := .last hnext
      rw [hsame, h] at hlast hnext
      cases hnext
      rw [hsame, h]
      exact hlast
    | ok t =>
      -- The session goes on after `size` steps, so it needs more of them to end.
      have hlt : size < k := by
        by_contra hle
        obtain ⟨d, rfl⟩ := Nat.exists_eq_add_of_le (Nat.le_of_not_lt hle)
        have hended := run_runFor_add_of_ended (runFor_ne_of_error hk) d
        refine runFor_ne_of_error hk ?_
        rw [← show s.runFor (k + d) = s.runFor k from hended]
        exact (next_eq_ok_iff.1 hnext).1
      obtain ⟨d, rfl⟩ := Nat.exists_eq_add_of_lt hlt
      rw [Nat.add_assoc] at h hk hlt ih ⊢
      obtain ⟨hadd, htriesAdd⟩ := proceed_add hnext (d + 1)
      rw [hadd] at h
      cases hrest : t.proceed (d + 1) with
      | mk output' log' next =>
        rw [hrest] at h
        cases h
        obtain ⟨tried, htries, hexits⟩ := ih (d + 1) (by omega) hrest
        exact ⟨t.tries size ++ tried, by rw [htriesAdd, htries], .goOn hnext hexits⟩

end Session

/-! ## Exits in terms of the session -/

namespace Stretch

variable {st : Stretch} {size : Nat} {tried : List Cpu} {output log : List String} {code : UInt8}

/-- A stretch after which a session goes on, to end after enough steps. -/
theorem exits_iff_of_ok (hsize : 1 ≤ size) {s : Session} (h : st.next = .ok s) :
    st.Exits size tried output log code ↔
      ∃ k, (s.proceed k).next = .error code ∧ tried = s.tries k ∧
        output = st.output ++ (s.proceed k).output ∧ log = st.log ++ (s.proceed k).log := by
  constructor
  · intro hexits
    cases hexits with
    | last h' =>
      rw [h'] at h
      cases h
    | goOn h' rest =>
      rw [h'] at h
      cases h
      obtain ⟨k, hk, htries⟩ := Session.exists_of_exits rest rfl
      exact ⟨k, by rw [hk], htries.symm, by rw [hk], by rw [hk]⟩
  · rintro ⟨k, hk, rfl, rfl, rfl⟩
    have hwhole : s.proceed k = ⟨(s.proceed k).output, (s.proceed k).log, .error code⟩ := by
      rw [← hk]
    obtain ⟨tried, htries, hexits⟩ := Session.exits_of_proceed hsize k hwhole
    rw [htries]
    exact .goOn h hexits

end Stretch

end NesCore.CommandLine
