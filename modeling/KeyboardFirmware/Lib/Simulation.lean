/-
  Simulation of one deterministic system by another that takes its time.

  A step of the first system is matched by any number of steps of the second, none included; a rank
  that goes down where there is none keeps the second from being left behind for ever.  From one step
  (`Simulates.step`) follow two facts about runs: the second system gets to every state of a run of
  the first (`Simulates.run`), and however long a run of the second system is, it lies within what the
  first one does (`Simulates.covers`).  Both speak of runs whose states all satisfy a guard.
-/
import Mathlib.Tactic.Common

namespace KeyboardFirmware.Lib

/-- A run of `n` steps that are all taken from states satisfying `P`. -/
inductive Steps {C : Type*} (next : C → Option C) (P : C → Prop) : Nat → C → C → Prop
  | refl (c : C) : Steps next P 0 c c
  | head {n : Nat} {c c' c'' : C} (hP : P c) (hstep : next c = some c')
    (hrest : Steps next P n c' c'') : Steps next P (n + 1) c c''

namespace Steps

variable {C : Type*} {next : C → Option C} {P Q : C → Prop} {m n : Nat} {c c' c'' : C}

theorem one (hP : P c) (hstep : next c = some c') : Steps next P 1 c c' := .head hP hstep (.refl c')

theorem trans (h1 : Steps next P m c c') (h2 : Steps next P n c' c'') :
    Steps next P (m + n) c c'' := by
  induction h1 with
  | refl =>
    rw [Nat.zero_add]
    exact h2
  | head hP hstep _ ih =>
    rw [Nat.add_right_comm]
    exact .head hP hstep (ih h2)

theorem mono (h : Steps next P n c c') (hPQ : ∀ c, P c → Q c) : Steps next Q n c c' := by
  induction h with
  | refl => exact .refl _
  | head hP hstep _ ih => exact .head (hPQ _ hP) hstep ih

/-- A run goes on where a shorter one from the same state has ended. -/
theorem rest (h : Steps next P n c c'') (h' : Steps next Q m c c') (hle : m ≤ n) :
    Steps next P (n - m) c' c'' := by
  induction h' generalizing n with
  | refl => exact h
  | head _ hstep _ ih =>
    cases h with
    | refl => exact absurd hle (Nat.not_succ_le_zero _)
    | head _ hstep' hrest =>
      obtain rfl := Option.some.inj (hstep'.symm.trans hstep)
      rw [Nat.add_sub_add_right]
      exact ih hrest (Nat.le_of_succ_le_succ hle)

end Steps

variable {C D : Type*} {next : C → Option C} {P : C → Prop} {next' : D → Option D}
  {R : C → D → Prop} {rank : C → Nat}

/-- Every step of `next` from a state satisfying `P` is matched by steps of `next'`. -/
def Simulates (next : C → Option C) (P : C → Prop) (next' : D → Option D) (R : C → D → Prop)
    (rank : C → Nat) : Prop :=
  ∀ c c' d, R c d → P c → next c = some c' →
    ∃ n d', Steps next' (fun _ => True) n d d' ∧ R c' d' ∧ (n = 0 → rank c' < rank c)

/-- **Every run is matched.** -/
theorem Simulates.run (h : Simulates next P next' R rank) {n : Nat} {c c' : C}
    (hrun : Steps next P n c c') : ∀ d, R c d →
      ∃ m d', Steps next' (fun _ => True) m d d' ∧ R c' d' := by
  induction hrun with
  | refl => exact fun d hd => ⟨0, d, .refl d, hd⟩
  | head hP hstep _ ih =>
    intro d hd
    obtain ⟨m, d', hm, hd', -⟩ := h _ _ d hd hP hstep
    obtain ⟨k, d'', hk, hd''⟩ := ih d' hd'
    exact ⟨m + k, d'', hm.trans hk, hd''⟩

/-- **Nothing else happens**: the second system takes any number of steps only together with the
    first one, as long as that one goes on and satisfies the guard. -/
theorem Simulates.covers (h : Simulates next P next' R rank) (m : Nat) :
    ∀ c d, R c d → ∃ n c' k d', Steps next P n c c' ∧ Steps next' (fun _ => True) k d d' ∧
      R c' d' ∧ (m ≤ k ∨ next c' = none ∨ ¬ P c') := by
  -- on the number of steps asked for, and for each by the rank of the first system
  induction m using Nat.strongRecOn with
  | ind m ihSteps =>
    intro c
    obtain ⟨r, hr⟩ : ∃ r, rank c = r := ⟨_, rfl⟩
    induction r using Nat.strongRecOn generalizing c with
    | ind r ihRank =>
      intro d hd
      cases hstep : next c with
      | none => exact ⟨0, c, 0, d, .refl c, .refl d, hd, .inr (.inl hstep)⟩
      | some c₁ =>
        by_cases hP : P c
        · obtain ⟨k₁, d₁, hk₁, hd₁, hrank⟩ := h c c₁ d hd hP hstep
          have hrest : ∃ n c' k d', Steps next P n c₁ c' ∧ Steps next' (fun _ => True) k d₁ d' ∧
              R c' d' ∧ (m - k₁ ≤ k ∨ next c' = none ∨ ¬ P c') := by
            rcases Nat.eq_zero_or_pos k₁ with hzero | hpos
            · rw [hzero]
              exact ihRank _ (hr ▸ hrank hzero) c₁ rfl d₁ hd₁
            · rcases Nat.eq_zero_or_pos m with rfl | hm
              · exact ⟨0, c₁, 0, d₁, .refl c₁, .refl d₁, hd₁, .inl (by omega)⟩
              · exact ihSteps (m - k₁) (by omega) c₁ d₁ hd₁
          obtain ⟨n, c', k, d', hn, hk, hd', hend⟩ := hrest
          refine ⟨n + 1, c', k₁ + k, d', .head hP hstep hn, hk₁.trans hk, hd', ?_⟩
          exact hend.imp (fun hle => by omega) id
        · exact ⟨0, c, 0, d, .refl c, .refl d, hd, .inr (.inr hP)⟩

end KeyboardFirmware.Lib
