/-
  A ring of cells that are written in turn.

  A write goes to the cell behind the one written last, and to the first cell behind the last cell.  So
  the cells hold the last values written, and what holds of all the cells holds of all these values
  (`Ring.forall_iff`).
-/
import Mathlib.Logic.Function.Basic
import Mathlib.Tactic.Common

namespace KeyboardFirmware.Lib

variable {α : Type*}

/-- The value written `i` writes ago, of the values `past`, the newest first; `start` before them. -/
def ago (start : α) (past : List α) (i : Nat) : α := past.getD i start

/-- The cell `i` places before another. -/
def cellBefore (n index i : Nat) : Nat := (index + (n - i)) % n

/-- The first `n` cells hold the last `n` values, the newest one at `index`. -/
structure Ring (n : Nat) (start : α) (past : List α) (index : Nat) (cells : Nat → α) : Prop where
  index_lt : index < n
  cells_eq : ∀ i < n, cells (cellBefore n index i) = ago start past i

@[simp] theorem ago_zero (start a : α) (past : List α) : ago start (a :: past) 0 = a := rfl

@[simp] theorem ago_succ (start a : α) (past : List α) (i : Nat) :
    ago start (a :: past) (i + 1) = ago start past i := rfl

/-! ## The cells -/

variable {n index i : Nat}

/-- The places before a cell, without the remainder. -/
theorem cellBefore_eq (hindex : index < n) (hi : i < n) :
    cellBefore n index i = if i ≤ index then index - i else index + n - i := by
  unfold cellBefore
  split
  · have hsum : index + (n - i) = index - i + n := by omega
    rw [hsum, Nat.add_mod_right, Nat.mod_eq_of_lt (by omega)]
  · rw [Nat.mod_eq_of_lt (by omega)]
    omega

theorem cellBefore_zero (hindex : index < n) : cellBefore n index 0 = index := by
  rw [cellBefore_eq hindex (by omega), if_pos (Nat.zero_le index), Nat.sub_zero]

theorem next_eq (hindex : index < n) :
    (index + 1) % n = if index + 1 < n then index + 1 else 0 := by
  split
  · next hlt => exact Nat.mod_eq_of_lt hlt
  · next hge =>
    have heq : index + 1 = n := by omega
    rw [heq, Nat.mod_self]

/-- A cell that was `i` places before is one place further when the ring moves on. -/
theorem cellBefore_next (hindex : index < n) (hi : i + 1 < n) :
    cellBefore n ((index + 1) % n) (i + 1) = cellBefore n index i := by
  have hnext : (index + 1) % n < n := Nat.mod_lt _ (by omega)
  rw [cellBefore_eq hnext hi, cellBefore_eq hindex (by omega), next_eq hindex]
  split_ifs <;> omega

theorem cellBefore_next_ne (hindex : index < n) (hi : i + 1 < n) :
    cellBefore n index i ≠ (index + 1) % n := by
  rw [cellBefore_eq hindex (by omega), next_eq hindex]
  split_ifs <;> omega

/-- Every cell is some places before the newest one. -/
theorem exists_cellBefore (hindex : index < n) {j : Nat} (hj : j < n) :
    ∃ i < n, cellBefore n index i = j := by
  by_cases hle : j ≤ index
  · refine ⟨index - j, by omega, ?_⟩
    rw [cellBefore_eq hindex (by omega), if_pos (by omega)]
    omega
  · refine ⟨index + n - j, by omega, ?_⟩
    rw [cellBefore_eq hindex (by omega), if_neg (by omega)]
    omega

theorem cellBefore_lt (hindex : index < n) (i : Nat) : cellBefore n index i < n :=
  Nat.mod_lt _ (by omega)

/-! ## Writing and reading -/

variable {start a : α} {past : List α} {cells : Nat → α}

/-- Nothing is written yet. -/
theorem ring_start (hn : 0 < n) (start : α) : Ring n start [] 0 fun _ => start :=
  ⟨hn, fun _ _ => rfl⟩

/-- **A write** makes its value the newest and keeps the others but the oldest. -/
theorem Ring.push (h : Ring n start past index cells) (a : α) :
    Ring n start (a :: past) ((index + 1) % n) (Function.update cells ((index + 1) % n) a) where
  index_lt := Nat.mod_lt _ (Nat.zero_lt_of_lt h.index_lt)
  cells_eq := by
    intro i hi
    cases i with
    | zero =>
      have hnext : (index + 1) % n < n := Nat.mod_lt _ hi
      rw [cellBefore_zero hnext, Function.update_self, ago_zero]
    | succ i =>
      rw [cellBefore_next h.index_lt hi, Function.update_of_ne (cellBefore_next_ne h.index_lt hi),
        h.cells_eq i (by omega), ago_succ]

/-- **All the cells** hold what all the last values are. -/
theorem Ring.forall_iff (h : Ring n start past index cells) (P : α → Prop) :
    (∀ j < n, P (cells j)) ↔ ∀ i < n, P (ago start past i) := by
  constructor
  · intro hcells i hi
    rw [← h.cells_eq i hi]
    exact hcells _ (cellBefore_lt h.index_lt i)
  · intro hpast j hj
    obtain ⟨i, hi, rfl⟩ := exists_cellBefore h.index_lt hj
    rw [h.cells_eq i hi]
    exact hpast i hi

end KeyboardFirmware.Lib
