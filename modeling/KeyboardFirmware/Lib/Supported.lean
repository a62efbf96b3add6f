/-
  Sets of a graph whose every element has a predecessor in the set.

  Taking away, over and over, what nothing leads to leaves the largest such set.  In a finite graph it
  is what the root or some cycle leads to (`supported_iff`): going back from an element one comes to
  the root or goes round.
-/
import Mathlib.Data.Set.Finite.Basic
import Mathlib.Data.Fintype.Pigeonhole
import Mathlib.Logic.Relation

namespace KeyboardFirmware.Lib

open Relation

variable {α : Type*} {E : α → α → Prop} {root : α} {S : Set α}

/-- Everything in the set but the root has a predecessor in the set. -/
def Supported (E : α → α → Prop) (root : α) (S : Set α) : Prop :=
  ∀ n ∈ S, n ≠ root → ∃ m ∈ S, E m n

/-- A cycle leads to `n`. -/
def FromCycle (E : α → α → Prop) (n : α) : Prop := ∃ c, TransGen E c c ∧ ReflTransGen E c n

theorem FromCycle.tail {m n : α} (h : FromCycle E m) (hmn : E m n) : FromCycle E n := by
  obtain ⟨c, hcycle, hlead⟩ := h
  exact ⟨c, hcycle, hlead.tail hmn⟩

/-- What the root or a cycle leads to supports itself. -/
theorem supported_reached (E : α → α → Prop) (root : α) :
    Supported E root {n | ReflTransGen E root n ∨ FromCycle E n} := by
  rintro n (hroot | ⟨c, hcycle, hlead⟩) hne
  · rcases hroot.cases_tail with heq | ⟨m, hm, hmn⟩
    · exact absurd heq hne
    · exact ⟨m, .inl hm, hmn⟩
  · rcases hlead.cases_tail with heq | ⟨m, hm, hmn⟩
    · subst heq
      -- the cycle itself ends with an edge to `n`
      obtain ⟨m, hm, hmn⟩ := TransGen.tail'_iff.mp hcycle
      exact ⟨m, .inr ⟨n, hcycle, hm⟩, hmn⟩
    · exact ⟨m, .inr ⟨c, hcycle, hm⟩, hmn⟩

/-- Going back in a finite set leads to the root or round a cycle. -/
theorem Supported.reached (h : Supported E root S) (hfinite : S.Finite) {n : α} (hn : n ∈ S) :
    ReflTransGen E root n ∨ FromCycle E n := by
  by_contra hnot
  obtain ⟨hroot, hcycle⟩ := not_or.mp hnot
  -- the ancestors of `n` in the set, none of them the root
  have hback : ∀ x : {m // m ∈ S ∧ ReflTransGen E m n}, ∃ y : {m // m ∈ S ∧ ReflTransGen E m n},
      E y.1 x.1 := by
    rintro ⟨m, hm, hlead⟩
    have hne : m ≠ root := fun heq => hroot (heq ▸ hlead)
    obtain ⟨k, hk, hkm⟩ := h m hm hne
    exact ⟨⟨k, hk, .head hkm hlead⟩, hkm⟩
  choose back hback using hback
  have hfin : Finite {m // m ∈ S ∧ ReflTransGen E m n} :=
    (hfinite.subset fun m hm => hm.1).to_subtype
  obtain ⟨i, j, hne, heq⟩ := Finite.exists_ne_map_eq_of_infinite fun k : ℕ => back^[k] ⟨n, hn, .refl⟩
  have hstep : ∀ (x : {m // m ∈ S ∧ ReflTransGen E m n}) k,
      TransGen E (back^[k + 1] x).1 x.1 := by
    intro x k
    induction k with
    | zero => exact .single (hback x)
    | succ k ih =>
      rw [Function.iterate_succ_apply']
      exact .head (hback _) ih
  have hround : ∀ i j, i < j → back^[i] ⟨n, hn, .refl⟩ = back^[j] ⟨n, hn, .refl⟩ → False := by
    intro i j hlt hij
    obtain ⟨d, rfl⟩ := Nat.exists_eq_add_of_lt hlt
    have hcyc := hstep (back^[i] ⟨n, hn, .refl⟩) d
    rw [← Function.iterate_add_apply, show d + 1 + i = i + d + 1 by omega, ← hij] at hcyc
    exact hcycle ⟨_, hcyc, (back^[i] ⟨n, hn, .refl⟩).2.2⟩
  rcases Nat.lt_or_gt_of_ne hne with hlt | hgt
  · exact hround i j hlt heq
  · exact hround j i hgt heq.symm

/-- **The largest set that supports itself**: a finite one that contains every other is what the root or
    a cycle leads to. -/
theorem supported_iff (h : Supported E root S) (hfinite : S.Finite)
    (hmax : ∀ S', Supported E root S' → (∀ n ∈ S', n = root ∨ ∃ m, E m n) → S' ⊆ S) (n : α) :
    n ∈ S ↔ ReflTransGen E root n ∨ FromCycle E n := by
  constructor
  · exact h.reached hfinite
  · intro hn
    refine hmax _ (supported_reached E root) (fun m hm => ?_) hn
    by_cases hne : m = root
    · exact .inl hne
    · obtain ⟨k, -, hkm⟩ := supported_reached E root m hm hne
      exact .inr ⟨k, hkm⟩

end KeyboardFirmware.Lib
