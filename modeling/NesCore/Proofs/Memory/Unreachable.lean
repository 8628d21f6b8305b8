import NesCore.Proofs.Memory.History

/-!
# Cells that no address leads to

Where several addresses share a cell, and where a policy keeps nothing, raw cells are left over:
`unreachable_iff` says that the cells of `IoPolicy.Unreachable` are exactly those to which no
address leads. An action that works through the bus cannot tell apart two memories that differ in
such cells only, and leaves these cells alone (`Memory.Oblivious`): true of single accesses, it is
true of everything put together from them.
-/

namespace NesCore

/-! ## Unreachable cells -/

namespace IoPolicy

/-- The further copies of work memory and of mirrored video registers, and the whole range of a
policy that keeps nothing there. -/
def Unreachable (policy : IoPolicy) (a : UInt16) : Prop :=
  (0x0800 ≤ a ∧ a ≤ 0x1FFF) ∨
  (policy = .mirrored ∧ 0x2008 ≤ a ∧ a ≤ 0x3FFF) ∨
  ((policy = .silent ∨ policy = .fault) ∧ 0x2000 ≤ a ∧ a ≤ 0x401F)

instance (policy : IoPolicy) : DecidablePred policy.Unreachable :=
  fun _ => inferInstanceAs (Decidable (_ ∨ _ ∨ _))

variable {policy : IoPolicy} {a : UInt16}

theorem unreachable_iff_toNat :
    policy.Unreachable a ↔
      (0x0800 ≤ a.toNat ∧ a.toNat ≤ 0x1FFF) ∨
      (policy = .mirrored ∧ 0x2008 ≤ a.toNat ∧ a.toNat ≤ 0x3FFF) ∨
      ((policy = .silent ∨ policy = .fault) ∧ 0x2000 ≤ a.toNat ∧ a.toNat ≤ 0x401F) := by
  simp only [Unreachable, UInt16.le_iff_toNat_le]
  rfl

/-- Folding a video address leads to one of the eight registers. -/
theorem toNat_and_2007 (hlow : 0x2000 ≤ a.toNat) (hhigh : a.toNat ≤ 0x3FFF) :
    0x2000 ≤ (a &&& 0x2007).toNat ∧ (a &&& 0x2007).toNat ≤ 0x2007 := by
  have hand : (a &&& 0x2007).toNat = a.toNat &&& 0x2007 := UInt16.toNat_and a 0x2007
  have hbit : (a.toNat &&& 0x2007).testBit 13 = true := by
    rw [Nat.testBit_and, Nat.testBit_eq_decide_div_mod_eq, Nat.testBit_eq_decide_div_mod_eq]
    simp
    omega
  rw [hand]
  exact ⟨Nat.ge_two_pow_of_testBit hbit, Nat.and_le_right⟩

/-- Work memory is not folded. -/
theorem and_07FF_of_lt (h : a.toNat < 0x0800) : a &&& 0x07FF = a := by
  apply UInt16.toNat_inj.1
  rw [UInt16.toNat_and]
  exact (Nat.and_two_pow_sub_one_eq_mod a.toNat 11).trans (Nat.mod_eq_of_lt h)

/-- The eight video registers are not folded. -/
theorem and_2007_of_register (hlow : 0x2000 ≤ a.toNat) (hhigh : a.toNat ≤ 0x2007) :
    a &&& 0x2007 = a := by
  have hregisters : ∀ d < 8, UInt16.ofNat (0x2000 + d) &&& 0x2007 = UInt16.ofNat (0x2000 + d) := by
    decide
  have ha : a = UInt16.ofNat (0x2000 + (a.toNat - 0x2000)) := by
    apply UInt16.toNat_inj.1
    rw [UInt16.toNat_ofNat']
    omega
  rw [ha]
  exact hregisters _ (by omega)

/-- Where an access is neither refused nor swallowed, the class of its address is reachable. -/
theorem not_unreachable_fold (hr : ¬ policy.Refuses a) (hs : ¬ policy.Swallows a) :
    ¬ policy.Unreachable (policy.fold a) := by
  have hlow : a < 0x2000 ↔ a.toNat < 0x2000 := UInt16.lt_iff_toNat_lt
  have hvideo : a ≤ 0x3FFF ↔ a.toNat ≤ 0x3FFF := UInt16.le_iff_toNat_le
  have hkept (h : policy = .silent ∨ policy = .fault) : ¬ IsIo a := fun hio =>
    h.elim (fun hp => hs ⟨hp, hio⟩) (fun hp => hr ⟨hp, hio⟩)
  rw [isIo_iff_toNat] at hkept
  unfold fold
  rw [unreachable_iff_toNat]
  split_ifs with h₁ h₂
  · have hle : (a &&& 0x07FF).toNat ≤ 0x07FF := Nat.and_le_right
    omega
  · rw [hlow] at h₁
    rw [hvideo] at h₂
    have hregister := toNat_and_2007 (by omega) h₂.2
    rintro (h | h | ⟨hp, -⟩)
    · omega
    · omega
    · rw [h₂.1] at hp
      exact absurd hp (by decide)
  · rw [hlow] at h₁
    rw [hvideo] at h₂
    rintro (h | ⟨hp, h⟩ | ⟨hp, h⟩)
    · omega
    · exact h₂ ⟨hp, h.2⟩
    · exact hkept hp h

/-- A reachable cell is the class of its own address. -/
theorem target_of_not_unreachable (h : ¬ policy.Unreachable a) : policy.target a = .cell a := by
  have hlow : a < 0x2000 ↔ a.toNat < 0x2000 := UInt16.lt_iff_toNat_lt
  have hvideo : a ≤ 0x3FFF ↔ a.toNat ≤ 0x3FFF := UInt16.le_iff_toNat_le
  rw [unreachable_iff_toNat, not_or, not_or] at h
  obtain ⟨hwork, hregisters, hkept⟩ := h
  have hio (hp : policy = .silent ∨ policy = .fault) : ¬ IsIo a := by
    rw [isIo_iff_toNat]
    exact fun hrange => hkept ⟨hp, hrange⟩
  have hr : ¬ policy.Refuses a := fun hr => hio (.inr hr.1) hr.2
  have hs : ¬ policy.Swallows a := fun hs => hio (.inl hs.1) hs.2
  have hfold : policy.fold a = a := by
    unfold fold
    split_ifs with h₁ h₂
    · rw [hlow] at h₁
      exact and_07FF_of_lt (by omega)
    · rw [hlow] at h₁
      rw [hvideo] at h₂
      have hregister : ¬ (0x2008 ≤ a.toNat ∧ a.toNat ≤ 0x3FFF) := fun h => hregisters ⟨h₂.1, h⟩
      exact and_2007_of_register (by omega) (by omega)
    · rfl
  rw [target_eq, if_neg hr, if_neg hs, hfold]

/-- **The unreachable cells are those to which no address leads.** -/
theorem unreachable_iff : policy.Unreachable a ↔ ∀ b, policy.target b ≠ .cell a := by
  constructor
  · intro h b hb
    rw [target_eq] at hb
    split_ifs at hb with hr hs
    cases hb
    exact not_unreachable_fold hr hs h
  · intro h
    by_contra hu
    exact h a (target_of_not_unreachable hu)

example : mirrored.Unreachable 0x2008 ∧ ¬ flat.Unreachable 0x2008 := by decide

end IoPolicy

/-! ## Memories that differ in unreachable cells -/

namespace Memory

/-- The second memory differs from the first one in unreachable cells only. -/
structure SameReachable (m n : Memory) : Prop where
  policy : n.policy = m.policy
  romMapped : n.romMapped = m.romMapped
  cell : ∀ a, ¬ m.policy.Unreachable a → n.cell a = m.cell a

/-- The second memory holds in its unreachable cells what the first one holds there. -/
structure SameUnreachable (m n : Memory) : Prop where
  policy : n.policy = m.policy
  cell : ∀ a, m.policy.Unreachable a → n.cell a = m.cell a

variable {m n : Memory}

namespace SameReachable

theorem setCell (m : Memory) {a : UInt16} (h : m.policy.Unreachable a) (v : UInt8) :
    m.SameReachable (m.setCell a v) where
  policy := rfl
  romMapped := rfl
  cell b hb := by
    have hne : b ≠ a := fun hba => hb (hba ▸ h)
    rw [cell_setCell, if_neg hne]

theorem read (h : m.SameReachable n) (a : UInt16) : n.read a = m.read a := by
  rw [read_eq, read_eq, h.policy]
  split_ifs with hr hs
  · rfl
  · rfl
  · rw [h.cell _ (IoPolicy.not_unreachable_fold hr hs)]

theorem peek (h : m.SameReachable n) (a : UInt16) : n.peek a = m.peek a := by
  rw [peek_eq_read, peek_eq_read, h.read]

theorem written (h : m.SameReachable n) (a : UInt16) (v : UInt8) :
    (m.written a v).SameReachable (n.written a v) where
  policy := by rw [policy_written, policy_written, h.policy]
  romMapped := by rw [romMapped_written, romMapped_written, h.romMapped]
  cell b hb := by
    rw [policy_written] at hb
    simp only [cell_written, h.policy, h.cell b hb, takes_congr h.policy h.romMapped]

end SameReachable

namespace SameUnreachable

theorem refl (m : Memory) : m.SameUnreachable m := ⟨rfl, fun _ _ => rfl⟩

theorem trans {k : Memory} (h : m.SameUnreachable n) (h' : n.SameUnreachable k) :
    m.SameUnreachable k where
  policy := h'.policy.trans h.policy
  cell a ha := by rw [h'.cell a (h.policy ▸ ha), h.cell a ha]

/-- No write reaches an unreachable cell. -/
theorem written (h : m.SameUnreachable n) (a : UInt16) (v : UInt8) :
    m.SameUnreachable (n.written a v) where
  policy := by rw [policy_written, h.policy]
  cell b hb := by
    have hout : ¬ (n.Takes a ∧ n.policy.fold a = b) := by
      rintro ⟨⟨-, hr, hs⟩, rfl⟩
      rw [← h.policy] at hb
      exact IoPolicy.not_unreachable_fold hr hs hb
    rw [cell_written, if_neg hout, h.cell b hb]

end SameUnreachable

/-! ## Actions on the bus -/

variable {α β : Type}

/-- The action treats memories alike that differ in unreachable cells only, and it does not touch
these cells. -/
structure Oblivious (x : Action Memory BusError α) : Prop where
  result : ∀ {m n : Memory}, m.SameReachable n → (x.run n).result = (x.run m).result
  events : ∀ {m n : Memory}, m.SameReachable n → (x.run n).events = (x.run m).events
  reachable : ∀ {m n : Memory}, m.SameReachable n → (x.run m).state.SameReachable (x.run n).state
  unreachable : ∀ m : Memory, m.SameUnreachable (x.run m).state

namespace Oblivious

open NesCore.Action

theorem pure (a : α) : Oblivious (pure a) :=
  ⟨fun _ => rfl, fun _ => rfl, id, SameUnreachable.refl⟩

theorem bind {x : Action Memory BusError β} {f : β → Action Memory BusError α}
    (hx : Oblivious x) (hf : ∀ b, Oblivious (f b)) : Oblivious (x >>= f) where
  result {m n} h := by
    rw [result_bind, result_bind, hx.result h]
    cases (x.run m).result with
    | error e => rfl
    | ok b => exact (hf b).result (hx.reachable h)
  events {m n} h := by
    rw [events_bind, events_bind, hx.result h, hx.events h]
    cases (x.run m).result with
    | error e => rfl
    | ok b => exact congrArg _ ((hf b).events (hx.reachable h))
  reachable {m n} h := by
    rw [state_bind, state_bind, hx.result h]
    cases (x.run m).result with
    | error e => exact hx.reachable h
    | ok b => exact (hf b).reachable (hx.reachable h)
  unreachable m := by
    rw [state_bind]
    cases (x.run m).result with
    | error e => exact hx.unreachable m
    | ok b => exact (hx.unreachable m).trans ((hf b).unreachable _)

theorem read (a : UInt16) : Oblivious (Bus.read a) where
  result h := by rw [Bus.run_read, Bus.run_read, h.read]
  events h := by rw [Bus.run_read, Bus.run_read, h.read]
  reachable h := h
  unreachable := SameUnreachable.refl

theorem write (a : UInt16) (v : UInt8) : Oblivious (Bus.write a v) where
  result h := by rw [Bus.result_write, Bus.result_write, h.policy]
  events {m n} h := by
    have hprotected : n.isProtected a = m.isProtected a := by
      unfold isProtected
      rw [h.romMapped]
    simp only [Bus.write, write_eq, h.policy, hprotected]
    split_ifs <;> rfl
  reachable h := by
    rw [Bus.state_write, Bus.state_write]
    exact h.written a v
  unreachable m := by
    rw [Bus.state_write]
    exact (SameUnreachable.refl m).written a v

theorem readWord (a : UInt16) : Oblivious (Bus.readWord a) :=
  .bind (.read a) fun _ => .bind (.read (a + 1)) fun _ => .pure _

theorem writeWord (a w : UInt16) : Oblivious (Bus.writeWord a w) :=
  .bind (.write a _) fun _ => .write (a + 1) _

end Oblivious

end Memory

end NesCore
