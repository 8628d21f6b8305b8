import NesCore.Proofs.Course.Stack

/-!
# The course of a reset

No policy rules the reset vector, so a reset goes the same way from any state: it reads the vector
and succeeds (`run_reset`). Only memory and settings outlast it (`restarted`).
-/

namespace NesCore.Cpu

open NesCore.Action

/-- The processor after a reset. -/
def restarted (c : Cpu) : Cpu where
  a := 0
  x := 0
  y := 0
  sp := c.config.resetSp
  pc := c.peekWord resetVector (resetVector + 1)
  status := Status.afterReset
  cycles := 7
  memory := c.memory
  config := c.config
  state := .running
  nmiPending := false
  irqPending := false

/-- The word of the reset vector is read from any memory. -/
theorem run_readWord_resetVector (c : Cpu) :
    (readWord resetVector).run c =
      ⟨[.read resetVector (some (c.memory.peek resetVector)),
          .read (resetVector + 1) (some (c.memory.peek (resetVector + 1)))],
        .ok (c.peekWord resetVector (resetVector + 1)), c⟩ := by
  have hlow : ¬ c.memory.policy.Refuses resetVector :=
    c.memory.policy.not_refuses_of_not_isIo (by decide)
  have hhigh : ¬ c.memory.policy.Refuses (resetVector + 1) :=
    c.memory.policy.not_refuses_of_not_isIo (by decide)
  rw [readWord_eq, run_bind_ok (run_read_of_not_refuses hlow),
    run_bind_ok (run_read_of_not_refuses hhigh)]
  rfl

/-- A reset reads its vector and succeeds, from any state. -/
theorem run_reset (c : Cpu) :
    reset.run c =
      ⟨[.read resetVector (some (c.memory.peek resetVector)),
          .read (resetVector + 1) (some (c.memory.peek (resetVector + 1))),
          .notice (.reset (c.peekWord resetVector (resetVector + 1)) c.config.resetSp)],
        .ok (), c.restarted⟩ := by
  have hword (d : Cpu) := run_readWord_resetVector d
  unfold reset
  rw [run_bind_ok (run_update _ _), run_bind_ok (by rw [run_mapError, hword]; rfl)]
  rfl

end NesCore.Cpu
