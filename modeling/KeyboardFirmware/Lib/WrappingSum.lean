/-
  Running sums that wrap.

  The sum is kept among the `n` numbers from `lo` on, so what is added beyond the last of them comes back
  at `lo`.  As long as it does not get there, a sum of positive numbers only grows; when it does, it
  comes back at or below zero, if what is added is not too large (`wrappedSums_grows_iff`).
-/
import Mathlib

namespace KeyboardFirmware.Lib

/-- The number that `x` wraps to, among the `n` numbers from `lo` on. -/
def wrapFrom (lo : Int) (n : Nat) (x : Int) : Int := lo + (x - lo) % n

/-- The sums after each of some numbers is added to `s`. -/
def wrappedSums (lo : Int) (n : Nat) : Int → List Int → List Int
  | _, [] => []
  | s, d :: ds => wrapFrom lo n (s + d) :: wrappedSums lo n (wrapFrom lo n (s + d)) ds

/-- All of them are positive, and none is smaller than one before it. -/
structure Grows (sums : List Int) : Prop where
  positive : ∀ s ∈ sums, 0 < s
  ascending : sums.Pairwise (· ≤ ·)

variable {lo s x : Int} {n : Nat} {ds : List Int}

theorem wrapFrom_of_mem (hlo : lo ≤ x) (hhi : x < lo + n) : wrapFrom lo n x = x := by
  unfold wrapFrom
  rw [Int.emod_eq_of_lt (by omega) (by omega)]
  omega

/-- One turn too far. -/
theorem wrapFrom_above (hlo : lo + n ≤ x) (hhi : x < lo + n + n) : wrapFrom lo n x = x - n := by
  unfold wrapFrom
  have hsub : x - lo = x - lo - n + n := by omega
  rw [hsub, Int.add_emod_right, Int.emod_eq_of_lt (by omega) (by omega)]
  omega

/-! ## From a sum that is not negative -/

/-- What is added stays below the limit: the sums only grow. -/
theorem wrappedSums_grow (hlo : lo ≤ 0) : ∀ (ds : List Int) (s : Int), 0 ≤ s → (∀ d ∈ ds, 0 < d) →
    s + ds.sum < lo + n → (∀ r ∈ wrappedSums lo n s ds, s < r) ∧ Grows (wrappedSums lo n s ds)
  | [], _, _, _, _ => ⟨nofun, nofun, .nil⟩
  | d :: ds, s, hs, hds, hsum => by
    have hd : 0 < d := hds d List.mem_cons_self
    have hrest : ∀ e ∈ ds, 0 < e := fun e he => hds e (List.mem_cons_of_mem _ he)
    have hnonneg : 0 ≤ ds.sum := List.sum_nonneg fun e he => Int.le_of_lt (hrest e he)
    rw [List.sum_cons] at hsum
    have hwrap : wrapFrom lo n (s + d) = s + d := wrapFrom_of_mem (by omega) (by omega)
    obtain ⟨habove, hgrows⟩ := wrappedSums_grow hlo ds (s + d) (by omega) hrest (by omega)
    rw [wrappedSums, hwrap]
    constructor
    · intro r hr
      rcases List.mem_cons.mp hr with rfl | hr
      · omega
      · have := habove r hr
        omega
    · constructor
      · intro r hr
        rcases List.mem_cons.mp hr with rfl | hr
        · omega
        · exact hgrows.positive r hr
      · exact List.pairwise_cons.mpr ⟨fun r hr => Int.le_of_lt (habove r hr), hgrows.ascending⟩

/-- What is added reaches the limit: one of the sums is not positive. -/
theorem wrappedSums_turn (hlo : lo ≤ 0) (hn : 1 ≤ lo + n) : ∀ (ds : List Int) (s : Int), 0 ≤ s →
    s < lo + n → (∀ d ∈ ds, 0 < d ∧ d ≤ 1 - lo) → lo + n ≤ s + ds.sum →
    ∃ r ∈ wrappedSums lo n s ds, r ≤ 0
  | [], s, _, hlt, _, hsum => by
    rw [List.sum_nil] at hsum
    omega
  | d :: ds, s, hs, hlt, hds, hsum => by
    obtain ⟨hd, hle⟩ := hds d List.mem_cons_self
    rw [List.sum_cons] at hsum
    by_cases hfits : s + d < lo + n
    · have hwrap : wrapFrom lo n (s + d) = s + d := wrapFrom_of_mem (by omega) hfits
      obtain ⟨r, hr, hrle⟩ := wrappedSums_turn hlo hn ds (s + d) (by omega) hfits
        (fun e he => hds e (List.mem_cons_of_mem _ he)) (by omega)
      refine ⟨r, ?_, hrle⟩
      rw [wrappedSums, hwrap]
      exact List.mem_cons_of_mem _ hr
    · have hwrap : wrapFrom lo n (s + d) = s + d - n := wrapFrom_above (by omega) (by omega)
      refine ⟨s + d - n, ?_, by omega⟩
      rw [wrappedSums, hwrap]
      exact List.mem_cons_self

/-! ## From any sum -/

/-- **Adding positive numbers** makes the sums grow if and only if the first of them is positive and
    the last one does not reach the limit. -/
theorem wrappedSums_grows_iff (hlo : lo ≤ 0) (hn : 1 ≤ lo + n) (hs : lo ≤ s) (hlt : s < lo + n)
    (hds : ∀ d ∈ ds, 0 < d ∧ d ≤ 1 - lo) :
    Grows (wrappedSums lo n s ds) ↔ ∀ d ∈ ds.head?, 0 < s + d ∧ s + ds.sum < lo + n := by
  cases ds with
  | nil => exact ⟨fun _ => nofun, fun _ => ⟨nofun, .nil⟩⟩
  | cons d ds =>
    obtain ⟨hd, hle⟩ := hds d List.mem_cons_self
    have hrest : ∀ e ∈ ds, 0 < e ∧ e ≤ 1 - lo := fun e he => hds e (List.mem_cons_of_mem _ he)
    have hnonneg : 0 ≤ ds.sum := List.sum_nonneg fun e he => Int.le_of_lt (hrest e he).1
    simp only [List.head?_cons, Option.mem_def, Option.some.injEq, forall_eq', List.sum_cons]
    rw [wrappedSums]
    constructor
    · intro h
      have hfirst := h.positive _ List.mem_cons_self
      by_cases hfits : s + d < lo + n
      · have hwrap : wrapFrom lo n (s + d) = s + d := wrapFrom_of_mem (by omega) hfits
        rw [hwrap] at h hfirst
        refine ⟨hfirst, ?_⟩
        by_contra hreach
        obtain ⟨r, hr, hrle⟩ := wrappedSums_turn hlo hn ds (s + d) (by omega) hfits hrest (by omega)
        have := h.positive r (List.mem_cons_of_mem _ hr)
        omega
      · have hwrap : wrapFrom lo n (s + d) = s + d - n := wrapFrom_above (by omega) (by omega)
        rw [hwrap] at hfirst
        omega
    · rintro ⟨hfirst, hsum⟩
      have hwrap : wrapFrom lo n (s + d) = s + d := wrapFrom_of_mem (by omega) (by omega)
      obtain ⟨habove, hgrows⟩ := wrappedSums_grow (n := n) hlo ds (s + d) (by omega)
        (fun e he => (hrest e he).1) (by omega)
      rw [hwrap]
      constructor
      · intro r hr
        rcases List.mem_cons.mp hr with rfl | hr
        · exact hfirst
        · exact hgrows.positive r hr
      · exact List.pairwise_cons.mpr ⟨fun r hr => Int.le_of_lt (habove r hr), hgrows.ascending⟩

end KeyboardFirmware.Lib
