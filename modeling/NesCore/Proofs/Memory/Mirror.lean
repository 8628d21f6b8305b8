import Mathlib.Data.List.Induction
import Mathlib.Tactic.SplitIfs
import NesCore.Bus
import NesCore.Proofs.Action

/-!
# Mirror classes and sequences of accesses

Several addresses can share a cell: `IoPolicy.fold` names the cell of an address, and `target_eq`
says that an address leads there unless the policy refuses or swallows the access. A sequence of
byte accesses changes memory like its writes one after another (`Memory.replay`), and `cell_replay`
reads a cell off the sequence: the latest write that took in the class of the cell, or what the
cell held before.
-/

namespace NesCore

/-! ## Classes of addresses -/

/-- The addresses that the policy rules. -/
def IsIo (a : UInt16) : Prop := 0x2000 ≤ a ∧ a ≤ 0x401F

instance : DecidablePred IsIo := fun _ => inferInstanceAs (Decidable (_ ∧ _))

theorem isIo_iff_toNat {a : UInt16} : IsIo a ↔ 0x2000 ≤ a.toNat ∧ a.toNat ≤ 0x401F := by
  simp only [IsIo, UInt16.le_iff_toNat_le]
  rfl

namespace IoPolicy

/-- The cell of an address: work memory repeats below `$2000`, the eight video registers repeat
below `$4000` under the mirrored policy. -/
def fold (policy : IoPolicy) (a : UInt16) : UInt16 :=
  if a < 0x2000 then a &&& 0x07FF
  else if policy = .mirrored ∧ a ≤ 0x3FFF then a &&& 0x2007
  else a

/-- Every access to the address fails. -/
def Refuses (policy : IoPolicy) (a : UInt16) : Prop := policy = .fault ∧ IsIo a

/-- The address reads as 0 and drops what is written. -/
def Swallows (policy : IoPolicy) (a : UInt16) : Prop := policy = .silent ∧ IsIo a

instance (policy : IoPolicy) : DecidablePred policy.Refuses :=
  fun _ => inferInstanceAs (Decidable (_ ∧ _))

instance (policy : IoPolicy) : DecidablePred policy.Swallows :=
  fun _ => inferInstanceAs (Decidable (_ ∧ _))

theorem target_eq (policy : IoPolicy) (a : UInt16) :
    policy.target a =
      if policy.Refuses a then .unmapped
      else if policy.Swallows a then .silent
      else .cell (policy.fold a) := by
  have hlow : a < 0x2000 ↔ a.toNat < 0x2000 := UInt16.lt_iff_toNat_lt
  have hio : a < 0x4020 ↔ a.toNat < 0x4020 := UInt16.lt_iff_toNat_lt
  have hvideo : a < 0x4000 ↔ a.toNat < 0x4000 := UInt16.lt_iff_toNat_lt
  have hvideo' : a ≤ 0x3FFF ↔ a.toNat ≤ 0x3FFF := UInt16.le_iff_toNat_le
  unfold target fold Refuses Swallows
  simp only [isIo_iff_toNat, hlow, hio, hvideo, hvideo']
  cases policy <;> simp <;> split_ifs <;> first | rfl | (exfalso; omega)

theorem not_refuses_of_ne_fault {policy : IoPolicy} (h : policy ≠ .fault) (a : UInt16) :
    ¬ policy.Refuses a := fun hr => h hr.1

/-- Outside the policy's range no access fails. -/
theorem not_refuses_of_not_isIo (policy : IoPolicy) {a : UInt16} (h : ¬ IsIo a) :
    ¬ policy.Refuses a := fun hr => h hr.2

theorem not_swallows_of_not_isIo (policy : IoPolicy) {a : UInt16} (h : ¬ IsIo a) :
    ¬ policy.Swallows a := fun hs => h hs.2

theorem not_isIo_of_rom {a : UInt16} (h : romStart ≤ a) : ¬ IsIo a := by
  have h' : 0x8000 ≤ a.toNat := UInt16.le_iff_toNat_le.1 h
  rw [isIo_iff_toNat]
  omega

/-- In the ROM every address is a class of its own. -/
theorem fold_of_rom (policy : IoPolicy) {a : UInt16} (h : romStart ≤ a) : policy.fold a = a := by
  have h' : 0x8000 ≤ a.toNat := UInt16.le_iff_toNat_le.1 h
  have hlow : ¬ a < 0x2000 := by rw [UInt16.lt_iff_toNat_lt]; simp; omega
  have hvideo : ¬ a ≤ 0x3FFF := by rw [UInt16.le_iff_toNat_le]; simp; omega
  unfold fold
  rw [if_neg hlow, if_neg (fun hm => hvideo hm.2)]

/-- No other address shares a cell with the ROM. -/
theorem rom_of_fold {policy : IoPolicy} {a : UInt16} (h : romStart ≤ policy.fold a) :
    romStart ≤ a := by
  have hle : policy.fold a ≤ a := by
    unfold fold
    split_ifs
    · exact UInt16.le_iff_toNat_le.2 Nat.and_le_left
    · exact UInt16.le_iff_toNat_le.2 Nat.and_le_left
    · exact UInt16.le_refl a
  exact UInt16.le_trans h hle

end IoPolicy

/-! ## Single accesses -/

namespace Memory

theorem read_eq (m : Memory) (a : UInt16) :
    m.read a =
      if m.policy.Refuses a then .error (.unmapped a)
      else if m.policy.Swallows a then .ok 0
      else .ok (m.cell (m.policy.fold a)) := by
  unfold read
  rw [IoPolicy.target_eq]
  split_ifs <;> rfl

theorem read_of_not_refuses {m : Memory} {a : UInt16} (h : ¬ m.policy.Refuses a) :
    m.read a = .ok (m.peek a) := by
  unfold read peek
  rw [IoPolicy.target_eq, if_neg h]
  split_ifs <;> rfl

theorem read_of_refuses {m : Memory} {a : UInt16} (h : m.policy.Refuses a) :
    m.read a = .error (.unmapped a) := by
  rw [read_eq, if_pos h]

theorem not_refuses_of_read_eq_ok {m : Memory} {a : UInt16} {v : UInt8} (h : m.read a = .ok v) :
    ¬ m.policy.Refuses a ∧ m.peek a = v := by
  by_cases hr : m.policy.Refuses a
  · rw [read_of_refuses hr] at h
    cases h
  · rw [read_of_not_refuses hr] at h
    cases h
    exact ⟨hr, rfl⟩

theorem read_of_rom {m : Memory} {a : UInt16} (h : romStart ≤ a) : m.read a = .ok (m.cell a) := by
  have hio : ¬ IsIo a := IoPolicy.not_isIo_of_rom h
  rw [read_eq, if_neg (m.policy.not_refuses_of_not_isIo hio),
    if_neg (m.policy.not_swallows_of_not_isIo hio), m.policy.fold_of_rom h]

theorem peek_of_rom {m : Memory} {a : UInt16} (h : romStart ≤ a) : m.peek a = m.cell a := by
  rw [peek_eq_read, read_of_rom h]

/-- A write to the address changes its cell. -/
def Takes (m : Memory) (a : UInt16) : Prop :=
  m.isProtected a = false ∧ ¬ m.policy.Refuses a ∧ ¬ m.policy.Swallows a

instance (m : Memory) : DecidablePred m.Takes := fun _ => inferInstanceAs (Decidable (_ ∧ _ ∧ _))

/-- The memory that a write leaves, whether it is accepted or not. -/
def written (m : Memory) (a : UInt16) (v : UInt8) : Memory :=
  if m.Takes a then m.setCell (m.policy.fold a) v else m

theorem written_of_takes {m : Memory} {a : UInt16} {v : UInt8} (h : m.Takes a) :
    m.written a v = m.setCell (m.policy.fold a) v := if_pos h

theorem written_of_not_takes {m : Memory} {a : UInt16} {v : UInt8} (h : ¬ m.Takes a) :
    m.written a v = m := if_neg h

/-- A refused write changes nothing. -/
theorem written_of_refuses {m : Memory} {a : UInt16} (v : UInt8) (h : m.policy.Refuses a) :
    m.written a v = m := written_of_not_takes (fun ht => ht.2.1 h)

@[simp] theorem policy_written (m : Memory) (a : UInt16) (v : UInt8) :
    (m.written a v).policy = m.policy := by
  unfold written
  split_ifs <;> rfl

@[simp] theorem romMapped_written (m : Memory) (a : UInt16) (v : UInt8) :
    (m.written a v).romMapped = m.romMapped := by
  unfold written
  split_ifs <;> rfl

theorem cell_written (m : Memory) (a c : UInt16) (v : UInt8) :
    (m.written a v).cell c = if m.Takes a ∧ m.policy.fold a = c then v else m.cell c := by
  by_cases ht : m.Takes a
  · rw [written_of_takes ht, cell_setCell]
    simp only [ht, true_and, eq_comm]
  · rw [written_of_not_takes ht, if_neg (fun h => ht h.1)]

/-- What lies from `$8000` on does not change by a write below. -/
theorem peek_written_of_rom {m : Memory} {a b : UInt16} (hb : romStart ≤ b)
    (ha : ¬ romStart ≤ a) (v : UInt8) : (m.written a v).peek b = m.peek b := by
  have hfold : m.policy.fold a ≠ b := fun h => ha (IoPolicy.rom_of_fold (h ▸ hb))
  rw [peek_of_rom hb, peek_of_rom hb, cell_written, if_neg fun h => hfold h.2]

theorem takes_congr {m n : Memory} (hp : n.policy = m.policy) (hr : n.romMapped = m.romMapped)
    (a : UInt16) : n.Takes a ↔ m.Takes a := by
  unfold Takes isProtected
  rw [hp, hr]

/-- Where writes take, a byte is read from the cell that they change. -/
theorem peek_of_takes {m : Memory} {a : UInt16} (h : m.Takes a) :
    m.peek a = m.cell (m.policy.fold a) := by
  rw [peek_eq_read, read_eq, if_neg h.2.1, if_neg h.2.2]

theorem peek_written_self {m : Memory} {a : UInt16} (h : m.Takes a) (v : UInt8) :
    (m.written a v).peek a = v := by
  have htakes : (m.written a v).Takes a :=
    (takes_congr (policy_written m a v) (romMapped_written m a v) a).2 h
  rw [peek_of_takes htakes, policy_written, cell_written, if_pos ⟨h, rfl⟩]

theorem not_takes_of_isProtected {m : Memory} {a : UInt16} (h : m.isProtected a = true) :
    ¬ m.Takes a := fun ht => absurd (h.symm.trans ht.1) (by decide)

theorem rom_of_isProtected {m : Memory} {a : UInt16} (h : m.isProtected a = true) :
    romStart ≤ a := by
  unfold isProtected at h
  exact of_decide_eq_true (Bool.and_eq_true_iff.1 h).2

theorem write_eq (m : Memory) (a : UInt16) (v : UInt8) :
    m.write a v = if m.policy.Refuses a then .error (.unmapped a) else .ok (m.written a v) := by
  unfold write
  by_cases hp : m.isProtected a = true
  · have hr : ¬ m.policy.Refuses a :=
      m.policy.not_refuses_of_not_isIo (IoPolicy.not_isIo_of_rom (rom_of_isProtected hp))
    rw [if_pos hp, if_neg hr, written_of_not_takes (not_takes_of_isProtected hp)]
  · rw [if_neg hp, IoPolicy.target_eq]
    by_cases hr : m.policy.Refuses a
    · rw [if_pos hr, if_pos hr]
    by_cases hs : m.policy.Swallows a
    · rw [if_neg hr, if_pos hs, if_neg hr, written_of_not_takes (fun ht => ht.2.2 hs)]
    · have ht : m.Takes a := ⟨Bool.eq_false_iff.2 hp, hr, hs⟩
      rw [if_neg hr, if_neg hs, if_neg hr, written_of_takes ht]

end Memory

/-! ## Accesses on record -/

namespace BusAccess

/-- The memory that an access leaves. -/
def leave (m : Memory) : BusAccess → Memory
  | read _ => m
  | write a v => m.written a v

/-- The value that an access puts into a cell. -/
def storedIn? (m : Memory) (c : UInt16) : BusAccess → Option UInt8
  | read _ => none
  | write a v => if m.Takes a ∧ m.policy.fold a = c then some v else none

end BusAccess

namespace Bus

theorem run_read_of_refuses {m : Memory} {a : UInt16} (h : m.policy.Refuses a) :
    (read a).run m = ⟨[.read a none], .error (.unmapped a), m⟩ := by
  rw [run_read, Memory.read_of_refuses h]
  rfl

theorem run_read_of_not_refuses {m : Memory} {a : UInt16} (h : ¬ m.policy.Refuses a) :
    (read a).run m = ⟨[.read a (some (m.peek a))], .ok (m.peek a), m⟩ := by
  rw [run_read, Memory.read_of_not_refuses h]
  rfl

theorem run_write_of_refuses {m : Memory} {a : UInt16} {v : UInt8} (h : m.policy.Refuses a) :
    (write a v).run m = ⟨[.write a v false], .error (.unmapped a), m⟩ := by
  simp only [write, Memory.write_eq, if_pos h]

/-- An accepted write is on record, perhaps with the notice that a ROM ignored it. -/
theorem run_write_of_not_refuses {m : Memory} {a : UInt16} {v : UInt8}
    (h : ¬ m.policy.Refuses a) : ∃ notices : List Notice,
      (write a v).run m = ⟨.write a v true :: notices.map .notice, .ok (), m.written a v⟩ := by
  refine ⟨if m.isProtected a then [.romWriteIgnored a v] else [], ?_⟩
  simp only [write, Memory.write_eq, if_neg h]
  cases m.isProtected a <;> rfl

@[simp] theorem accesses_read (m : Memory) (a : UInt16) :
    ((read a).run m).accesses = [.read a] := rfl

@[simp] theorem accesses_write (m : Memory) (a : UInt16) (v : UInt8) :
    ((write a v).run m).accesses = [.write a v] := by
  by_cases h : m.policy.Refuses a
  · rw [run_write_of_refuses h]
    rfl
  · obtain ⟨notices, hrun⟩ := run_write_of_not_refuses (v := v) h
    rw [hrun]
    simp [Outcome.accesses, Event.access?]

@[simp] theorem state_write (m : Memory) (a : UInt16) (v : UInt8) :
    ((write a v).run m).state = m.written a v := by
  by_cases h : m.policy.Refuses a
  · rw [run_write_of_refuses h, Memory.written_of_refuses v h]
  · obtain ⟨notices, hrun⟩ := run_write_of_not_refuses (v := v) h
    rw [hrun]

theorem result_write (m : Memory) (a : UInt16) (v : UInt8) :
    ((write a v).run m).result =
      if m.policy.Refuses a then .error (.unmapped a) else .ok () := by
  by_cases h : m.policy.Refuses a
  · rw [run_write_of_refuses h, if_pos h]
  · obtain ⟨notices, hrun⟩ := run_write_of_not_refuses (v := v) h
    rw [hrun, if_neg h]

end Bus

/-! ## Sequences of accesses -/

namespace Memory

/-- The memory after a sequence of accesses. -/
def replay (m : Memory) (accesses : List BusAccess) : Memory := accesses.foldl BusAccess.leave m

@[simp] theorem replay_nil (m : Memory) : m.replay [] = m := rfl

theorem replay_append (m : Memory) (xs ys : List BusAccess) :
    m.replay (xs ++ ys) = (m.replay xs).replay ys := List.foldl_append

/-- What all writes keep, a sequence of accesses keeps. -/
theorem replay_induction {P : Memory → Prop} (hw : ∀ m a v, P m → P (m.written a v)) {m : Memory}
    (hm : P m) (accesses : List BusAccess) : P (m.replay accesses) := by
  induction accesses generalizing m with
  | nil => exact hm
  | cons x xs ih =>
    cases x with
    | read a => exact ih hm
    | write a v => exact ih (hw m a v hm)

theorem policy_replay (m : Memory) (accesses : List BusAccess) :
    (m.replay accesses).policy = m.policy :=
  replay_induction (P := fun n => n.policy = m.policy)
    (fun n a v h => (policy_written n a v).trans h) rfl accesses

theorem romMapped_replay (m : Memory) (accesses : List BusAccess) :
    (m.replay accesses).romMapped = m.romMapped :=
  replay_induction (P := fun n => n.romMapped = m.romMapped)
    (fun n a v h => (romMapped_written n a v).trans h) rfl accesses

/-- A cell holds the latest value stored in it, or what it held before. -/
theorem cell_replay (m : Memory) (accesses : List BusAccess) (c : UInt16) :
    (m.replay accesses).cell c =
      (accesses.filterMap (BusAccess.storedIn? m c)).getLast?.getD (m.cell c) := by
  -- The last access decides, so the sequence is taken apart from its end.
  induction accesses using List.reverseRecOn with
  | nil => rfl
  | append_singleton xs x ih =>
    rw [replay_append, List.filterMap_append]
    cases x with
    | read a => simpa [BusAccess.leave, BusAccess.storedIn?, replay] using ih
    | write a v =>
      have ht := takes_congr (policy_replay m xs) (romMapped_replay m xs) a
      show ((m.replay xs).written a v).cell c = _
      simp only [cell_written, ht, policy_replay]
      by_cases h : m.Takes a ∧ m.policy.fold a = c
      · simp [BusAccess.storedIn?, h]
      · simp [BusAccess.storedIn?, h, ih]

end Memory

end NesCore
