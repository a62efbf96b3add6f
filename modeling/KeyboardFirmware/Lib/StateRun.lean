/-
  Runs of state transformers, as pairs of a result and a state.
-/
import Mathlib.Tactic.Common

namespace KeyboardFirmware.Lib

variable {σ α β : Type}

/-- One step and what follows. -/
theorem stateM_bind (x : StateM σ α) (f : α → StateM σ β) (s : σ) :
    (x >>= f) s = f (x s).1 (x s).2 := rfl

end KeyboardFirmware.Lib
