/-
  Binary search driven by a three-way comparator, as `bsearch` of the C library does it.

  The C function never sees the order of the table: it only sees the sign of `compar(key, elem)`.
  So the table is a function `cmp : Nat → Int` ("the key against the element at this position"),
  and sortedness is a property of the signs (`Sorted`): positive first, then zero, then negative.
  `bsearch_some` and `bsearch_none` are the two halves of the documented contract: a returned
  position matches, and nothing matches when nothing is returned.
-/
import Mathlib.Order.Basic
import Mathlib.Tactic.Common

namespace KeyboardFirmware.Lib

/-- The loop of `bsearch`: `base` is the first candidate, `lim` the number of candidates.  The
    fuel argument is a structural stand-in for `lim` reaching zero. -/
def bsearchLoop (cmp : Nat → Int) : Nat → Nat → Nat → Option Nat
  | 0, _, _ => none
  | fuel + 1, base, lim =>
    if lim = 0 then none
    else
      let p := base + lim / 2
      if cmp p = 0 then some p
      else if 0 < cmp p then bsearchLoop cmp fuel (p + 1) ((lim - 1) / 2)
      else bsearchLoop cmp fuel base (lim / 2)

/-- `bsearch` over positions `0 .. nmemb - 1`. -/
def bsearch (cmp : Nat → Int) (nmemb : Nat) : Option Nat := bsearchLoop cmp nmemb 0 nmemb

/-- The signs of the comparator descend over the table: what "the table is sorted" means to a
    function that sees the order only through `cmp`. -/
structure CmpSorted (cmp : Nat → Int) (n : Nat) : Prop where
  pos_of_le : ∀ i j, i ≤ j → j < n → 0 < cmp j → 0 < cmp i
  neg_of_le : ∀ i j, i ≤ j → j < n → cmp i < 0 → cmp j < 0

/-- Whatever the loop returns lies in the candidate range and matches; no sortedness needed. -/
theorem bsearchLoop_some {cmp : Nat → Int} : ∀ {fuel base lim p : Nat},
    bsearchLoop cmp fuel base lim = some p → p < base + lim ∧ cmp p = 0 := by
  intro fuel
  induction fuel with
  | zero => intro base lim p h; exact absurd h (by simp [bsearchLoop])
  | succ fuel ih =>
    intro base lim p h
    rw [bsearchLoop] at h
    split at h
    · exact absurd h (by simp)
    · next hlim =>
      dsimp only at h
      split at h
      · next hz =>
        obtain rfl : base + lim / 2 = p := by simpa using h
        exact ⟨by omega, hz⟩
      · split at h
        · have := ih h; exact ⟨by omega, this.2⟩
        · have := ih h; exact ⟨by omega, this.2⟩

/-- **The loop misses nothing**: on a sorted table an empty-handed search leaves no match among
    the candidates.  Induction on the fuel; each step discards the half that the sign of the
    middle element rules out. -/
theorem bsearchLoop_none {cmp : Nat → Int} {n : Nat} (hs : CmpSorted cmp n) :
    ∀ {fuel base lim : Nat}, lim ≤ fuel → base + lim ≤ n →
      bsearchLoop cmp fuel base lim = none → ∀ i, base ≤ i → i < base + lim → cmp i ≠ 0 := by
  intro fuel
  induction fuel with
  | zero => intro base lim hf _ _ i hlo hhi; omega
  | succ fuel ih =>
    intro base lim hf hn h i hlo hhi
    rw [bsearchLoop] at h
    split at h
    · omega
    · next hlim =>
      dsimp only at h
      split at h
      · exact absurd h (by simp)
      · next hz =>
        split at h
        · next hpos =>
          rcases Nat.lt_or_ge (base + lim / 2) i with hi | hi
          · exact ih (by omega) (by omega) h i (by omega) (by omega)
          · have := hs.pos_of_le i (base + lim / 2) hi (by omega) hpos
            omega
        · next hneg =>
          rcases Nat.lt_or_ge i (base + lim / 2) with hi | hi
          · exact ih (by omega) (by omega) h i hlo hi
          · have := hs.neg_of_le (base + lim / 2) i hi (by omega) (by omega)
            omega

theorem bsearch_some {cmp : Nat → Int} {n p : Nat} (h : bsearch cmp n = some p) :
    p < n ∧ cmp p = 0 := by
  have := bsearchLoop_some h
  simpa using this

theorem bsearch_none {cmp : Nat → Int} {n : Nat} (hs : CmpSorted cmp n)
    (h : bsearch cmp n = none) : ∀ i, i < n → cmp i ≠ 0 := fun i hi =>
  bsearchLoop_none hs (Nat.le_refl n) (by omega) h i (Nat.zero_le i) (by omega)

/-- When at most one position matches, the search returns exactly it. -/
theorem bsearch_eq_some_iff {cmp : Nat → Int} {n p : Nat} (hs : CmpSorted cmp n)
    (huniq : ∀ i j, i < n → j < n → cmp i = 0 → cmp j = 0 → i = j) :
    bsearch cmp n = some p ↔ p < n ∧ cmp p = 0 := by
  constructor
  · exact bsearch_some
  · rintro ⟨hp, hz⟩
    rcases hb : bsearch cmp n with _ | q
    · exact absurd hz (bsearch_none hs hb p hp)
    · obtain ⟨hq, hqz⟩ := bsearch_some hb
      rw [huniq q p hq hp hqz hz]

end KeyboardFirmware.Lib
