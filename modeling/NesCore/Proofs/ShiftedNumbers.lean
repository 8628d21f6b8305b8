import Mathlib.Tactic.LinearCombination
import NesCore.Proofs.Bytes

/-!
# Shifted numbers

A shift moves byte and carry as one number (`leftward`, `rightward`). Shifts of several bytes, each
with the carry that the one before has left (`pass`), do the same with the number of the bytes: from
the low byte on they double it (`pass_leftward`), from the high byte on they halve it
(`pass_rightward`). Each takes an induction with one byte more in front (`pass_cons_leftward`,
`pass_cons_rightward`).
-/

namespace NesCore

namespace Alu.Shift

variable {kind : Shift}

/-! ## Single bytes -/

/-- A shift to the left doubles, and what has no place in the byte goes to the carry. -/
theorem leftward (h : kind = .left ∨ kind = .rotateLeft) (v : UInt8) (carry : Bool) :
    (kind.value v carry).toNat + 256 * (kind.outgoing v).toNat =
      2 * v.toNat + (kind.incoming carry).toNat := by
  have hlt := v.toNat_lt
  have hbit := Bool.toNat_le (kind.incoming carry)
  have hvalue : (kind.value v carry).toNat = (2 * v.toNat + (kind.incoming carry).toNat) % 256 := by
    rcases h with rfl | rfl <;> exact UInt8.toNat_ofNat'
  have hout : (kind.outgoing v).toNat = v.toNat / 128 := by
    have hnegative : kind.outgoing v = Status.isNegative v := by rcases h with rfl | rfl <;> rfl
    rw [hnegative]
    by_cases h128 : 128 ≤ v.toNat
    · rw [Bytes.isNegative_iff.2 h128, Bool.toNat_true]
      omega
    · rw [Bool.eq_false_iff.2 fun hn => h128 (Bytes.isNegative_iff.1 hn), Bool.toNat_false]
      omega
  rw [hvalue, hout]
  omega

/-- A shift to the right halves, with the incoming bit above the byte and the remainder in the
carry. -/
theorem rightward (h : kind = .right ∨ kind = .rotateRight) (v : UInt8) (carry : Bool) :
    2 * (kind.value v carry).toNat + (kind.outgoing v).toNat =
      v.toNat + 256 * (kind.incoming carry).toNat := by
  have hlt := v.toNat_lt
  have hbit := Bool.toNat_le (kind.incoming carry)
  have hvalue : (kind.value v carry).toNat =
      (v.toNat / 2 + 128 * (kind.incoming carry).toNat) % 256 := by
    rcases h with rfl | rfl <;> exact UInt8.toNat_ofNat'
  have hout : (kind.outgoing v).toNat = v.toNat % 2 := by
    have hodd : kind.outgoing v = (v.toNat % 2 == 1) := by rcases h with rfl | rfl <;> rfl
    rw [hodd]
    rcases Nat.mod_two_eq_zero_or_one v.toNat with h2 | h2 <;> rw [h2] <;> rfl
  rw [hvalue, hout]
  omega

end Alu.Shift

namespace Bytes

open Alu (Shift)

variable {first kind : Shift} {v : UInt8} {carry : Bool} {shifts : List (Shift × UInt8)}
  {bytes rest : List UInt8}

/-! ## Several bytes -/

/-- The bytes and the carry that shifts leave, one after the other. -/
def pass : List (Shift × UInt8) → Bool → List UInt8 × Bool
  | [], carry => ([], carry)
  | (kind, v) :: rest, carry =>
    let out := pass rest (kind.outgoing v)
    (kind.value v carry :: out.1, out.2)

/-- A first shift, and then a rotation of each that follows. -/
def chain {α : Type} (first rotation : Shift) : List α → List (Shift × α)
  | [] => []
  | a :: rest => (first, a) :: rest.map (rotation, ·)

theorem map_chain {α β : Type} (f : α → β) (first rotation : Shift) (places : List α) :
    (chain first rotation places).map (Prod.map id f) = chain first rotation (places.map f) := by
  cases places with
  | nil => rfl
  | cons a rest => simp [chain]

theorem chain_ne_nil {α : Type} {places : List α} (h : places ≠ []) (first rotation : Shift) :
    chain first rotation places ≠ [] := by
  obtain ⟨a, rest, rfl⟩ := List.exists_cons_of_ne_nil h
  exact List.cons_ne_nil _ _

theorem map_snd_chain {α : Type} (first rotation : Shift) (places : List α) :
    (chain first rotation places).map Prod.snd = places := by
  cases places with
  | nil => rfl
  | cons a rest => simp [chain, Function.comp_def]

theorem length_pass (shifts : List (Shift × UInt8)) (carry : Bool) :
    (pass shifts carry).1.length = shifts.length := by
  induction shifts generalizing carry with
  | nil => rfl
  | cons shift rest ih => exact congrArg (· + 1) (ih _)

/-- With a byte in front that is shifted to the left, too, the whole number is doubled. -/
theorem pass_cons_leftward (h : kind = .left ∨ kind = .rotateLeft)
    (hrest : let out := pass shifts (kind.outgoing v)
      value out.1 + 256 ^ rest.length * out.2.toNat = 2 * value rest + (kind.outgoing v).toNat) :
    let out := pass ((kind, v) :: shifts) carry
    value out.1 + 256 ^ (v :: rest).length * out.2.toNat =
      2 * value (v :: rest) + (kind.incoming carry).toNat := by
  have hlow := Shift.leftward h v carry
  simp only [pass, value_cons, List.length_cons, Nat.pow_succ]
  linear_combination hlow + 256 * hrest

theorem pass_rotateLeft (bytes : List UInt8) (carry : Bool) :
    let out := pass (bytes.map (Shift.rotateLeft, ·)) carry
    value out.1 + 256 ^ bytes.length * out.2.toNat = 2 * value bytes + carry.toNat := by
  induction bytes generalizing carry with
  | nil => simp [pass]
  | cons v bytes ih => exact pass_cons_leftward (.inr rfl) (ih _)

/-- From the low byte on, shifts to the left double the number. -/
theorem pass_leftward (h : first = .left ∨ first = .rotateLeft) (hne : bytes ≠ []) (carry : Bool) :
    let out := pass (chain first .rotateLeft bytes) carry
    value out.1 + 256 ^ bytes.length * out.2.toNat =
      2 * value bytes + (first.incoming carry).toNat := by
  obtain ⟨v, rest, rfl⟩ := List.exists_cons_of_ne_nil hne
  exact pass_cons_leftward h (pass_rotateLeft rest _)

theorem value_reverse_cons (high : UInt8) (rest : List UInt8) :
    value (high :: rest).reverse = value rest.reverse + 256 ^ rest.length * high.toNat := by
  simp [value_append, value_cons]

/-- With a byte on top that is shifted to the right, too, the whole number is halved. -/
theorem pass_cons_rightward (h : kind = .right ∨ kind = .rotateRight)
    (hlength : shifts.length = rest.length)
    (hrest : let out := pass shifts (kind.outgoing v)
      2 * value out.1.reverse + out.2.toNat =
        value rest.reverse + 256 ^ rest.length * (kind.outgoing v).toNat) :
    let out := pass ((kind, v) :: shifts) carry
    2 * value out.1.reverse + out.2.toNat =
      value (v :: rest).reverse + 256 ^ (v :: rest).length * (kind.incoming carry).toNat := by
  have hhigh := Shift.rightward h v carry
  simp only [pass, value_reverse_cons, length_pass, hlength, List.length_cons, Nat.pow_succ]
  linear_combination 256 ^ rest.length * hhigh + hrest

theorem pass_rotateRight (bytes : List UInt8) (carry : Bool) :
    let out := pass (bytes.map (Shift.rotateRight, ·)) carry
    2 * value out.1.reverse + out.2.toNat =
      value bytes.reverse + 256 ^ bytes.length * carry.toNat := by
  induction bytes generalizing carry with
  | nil => simp [pass]
  | cons v bytes ih => exact pass_cons_rightward (.inr rfl) (List.length_map _) (ih _)

/-- From the high byte on, shifts to the right halve the number. -/
theorem pass_rightward (h : first = .right ∨ first = .rotateRight) (hne : bytes ≠ [])
    (carry : Bool) :
    let out := pass (chain first .rotateRight bytes) carry
    2 * value out.1.reverse + out.2.toNat =
      value bytes.reverse + 256 ^ bytes.length * (first.incoming carry).toNat := by
  obtain ⟨v, rest, rfl⟩ := List.exists_cons_of_ne_nil hne
  exact pass_cons_rightward h (List.length_map _) (pass_rotateRight rest _)

/-! ## What is left of the number -/

section Numbers

variable {n number shifted : Nat} {incoming outgoing : Bool}

/-- A doubled number loses its top bit to the carry. -/
theorem eq_of_leftward (hn : 0 < n) (hnumber : number < 256 ^ n) (hshifted : shifted < 256 ^ n)
    (h : shifted + 256 ^ n * outgoing.toNat = 2 * number + incoming.toNat) :
    shifted = (2 * number + incoming.toNat) % 256 ^ n ∧
      outgoing = number.testBit (8 * n - 1) := by
  refine ⟨?_, ?_⟩
  · rw [← h, Nat.add_mul_mod_self_left, Nat.mod_eq_of_lt hshifted]
  · have hbit := Bool.toNat_le incoming
    rw [Nat.testBit_eq_decide_div_mod_eq]
    rw [pow_eq_halves hn] at h hnumber hshifted
    generalize 2 ^ (8 * n - 1) = half at *
    cases outgoing with
    | false =>
      rw [Bool.toNat_false] at h
      rw [Nat.div_eq_of_lt (by omega)]
      rfl
    | true =>
      rw [Bool.toNat_true] at h
      rw [Nat.div_eq_of_lt_le (k := 1) (by omega) (by omega)]
      rfl

/-- A halved number loses its lowest bit to the carry. -/
theorem eq_of_rightward (hn : 0 < n)
    (h : 2 * shifted + outgoing.toNat = number + 256 ^ n * incoming.toNat) :
    shifted = (number + incoming.toNat * 256 ^ n) / 2 ∧ outgoing = number.testBit 0 := by
  have hbit := Bool.toNat_le outgoing
  refine ⟨?_, ?_⟩
  · rw [Nat.mul_comm, ← h]
    omega
  · have hodd : number % 2 = outgoing.toNat := by
      rw [pow_eq_halves hn, Nat.mul_assoc] at h
      omega
    rw [Nat.testBit_zero, hodd]
    cases outgoing <;> rfl

end Numbers

end Bytes

end NesCore
