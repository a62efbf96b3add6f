/-
  A counter that divides a rate.

  The counter goes round modulo `n`, and something is done at every step that brings it to 1.  In any `n`
  steps that is once (`hits_period`), unless `n` is 1: then the counter stays at 0 (`hits_one`).
-/
import Mathlib.Data.Nat.Periodic
import Mathlib.Tactic.Common

namespace KeyboardFirmware.Lib

/-- How often `k` steps bring a counter modulo `n` to 1, from the value `c` on. -/
def hits (n : Nat) : Nat → Nat → Nat
  | _, 0 => 0
  | c, k + 1 => (if (c + 1) % n = 1 then 1 else 0) + hits n ((c + 1) % n) k

/-- Only the remainder of the first value counts. -/
theorem hits_mod (n c : Nat) : ∀ k, hits n (c % n) k = hits n c k
  | 0 => rfl
  | k + 1 => by rw [hits, hits, Nat.mod_add_mod]

/-- The steps counted among the values from `c + 1` on, without going round. -/
theorem hits_eq_countP (n : Nat) : ∀ k c : Nat,
    hits n c k = (List.range' (c + 1) k).countP fun v => v % n = 1
  | 0, _ => rfl
  | k + 1, c => by
    rw [hits, hits_mod, hits_eq_countP n k (c + 1), List.range'_succ, List.countP_cons, Nat.add_comm]
    simp

/-- **Every `n` steps** hit once. -/
theorem hits_period {n : Nat} (hn : 2 ≤ n) (c : Nat) : hits n c n = 1 := by
  have hperiodic : Function.Periodic (fun v => v % n = 1) n := fun v => by simp
  have hcard := Nat.filter_Ico_card_eq_of_periodic (c + 1) n (fun v => v % n = 1) hperiodic
  have hrange : ∀ k, k < n → (k % n = 1 ↔ k = 1) := fun k hk => by rw [Nat.mod_eq_of_lt hk]
  have hcount : n.count (fun v => v % n = 1) = 1 := by
    rw [Nat.count_eq_card_filter_range, Finset.card_eq_one]
    refine ⟨1, ?_⟩
    ext k
    simp only [Finset.mem_filter, Finset.mem_range, Finset.mem_singleton]
    constructor
    · rintro ⟨hk, hmod⟩
      exact (hrange k hk).mp hmod
    · rintro rfl
      exact ⟨hn, (hrange 1 hn).mpr rfl⟩
  rw [hcount] at hcard
  have hlist : hits n c n = ((Finset.Ico (c + 1) (c + 1 + n)).filter fun v => v % n = 1).card := by
    rw [hits_eq_countP, Nat.Ico_eq_range', List.countP_eq_length_filter, Nat.add_sub_cancel_left]
    rfl
  rw [hlist, hcard]

/-- Modulo 1, the counter never gets to 1. -/
theorem hits_one : ∀ k c : Nat, hits 1 c k = 0
  | 0, _ => rfl
  | k + 1, c => by rw [hits, Nat.mod_one, hits_one k 0, if_neg Nat.zero_ne_one]

/-- More steps hit at least as often as fewer. -/
theorem hits_add (n : Nat) : ∀ k l c : Nat, hits n c (k + l) = hits n c k + hits n (c + k) l
  | 0, l, c => by rw [Nat.zero_add, hits, Nat.zero_add, Nat.add_zero]
  | k + 1, l, c => by
    have hshift : c + 1 + k = c + (k + 1) := by omega
    rw [Nat.succ_add, hits, hits, hits_mod, hits_mod, hits_add n k l (c + 1), hshift, Nat.add_assoc]

/-- `n` times as many steps hit as often as that. -/
theorem hits_mul {n : Nat} (hn : 2 ≤ n) : ∀ t c : Nat, hits n c (n * t) = t
  | 0, _ => rfl
  | t + 1, c => by
    rw [Nat.mul_succ, Nat.add_comm, hits_add, hits_period hn, hits_mul hn t, Nat.add_comm]

theorem hits_le {n k l : Nat} (h : k ≤ l) (c : Nat) : hits n c k ≤ hits n c l := by
  obtain ⟨d, rfl⟩ := Nat.exists_eq_add_of_le h
  rw [hits_add]
  exact Nat.le_add_right _ _

end KeyboardFirmware.Lib
