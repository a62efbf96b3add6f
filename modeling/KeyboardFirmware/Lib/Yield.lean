/-
  Programs that yield.

  A program reads and updates a state, and between its steps it may yield: there another update may
  be slipped in, and the program goes on from what it finds.  `Prog.delivered f p n s` is the outcome
  of `p` when `f` happens at its yield number `n`.  If what is left of `p` has nothing to do with what
  `f` updates, the outcome is that of `p` and then `f` (`delivered_after`); if what came before has
  not, it is that of `f` and then `p` (`delivered_before`).
-/
import Mathlib.Tactic.Common

namespace KeyboardFirmware.Lib

/-- A program over the states `σ` with results in `α`. -/
inductive Prog (σ α : Type) where
  | done (a : α)
  | read (k : σ → Prog σ α)
  | update (f : σ → σ) (k : Prog σ α)
  | yield (k : Prog σ α)

namespace Prog

variable {σ α β : Type}

/-- The second program goes on with the result of the first. -/
def bind : Prog σ α → (α → Prog σ β) → Prog σ β
  | done a, q => q a
  | read k, q => read fun s => (k s).bind q
  | update f k, q => update f (k.bind q)
  | yield k, q => yield (k.bind q)

/-- The run that nothing interferes with. -/
def run : Prog σ α → σ → α × σ
  | done a, s => (a, s)
  | read k, s => (k s).run s
  | update f k, s => k.run (f s)
  | yield k, s => k.run s

/-- How often the run yields. -/
def yields : Prog σ α → σ → Nat
  | done _, _ => 0
  | read k, s => (k s).yields s
  | update f k, s => k.yields (f s)
  | yield k, s => k.yields s + 1

/-- What is left of the program at a yield of the run, and the state there. -/
def atYield : Prog σ α → Nat → σ → Option (Prog σ α × σ)
  | done _, _, _ => none
  | read k, n, s => (k s).atYield n s
  | update f k, n, s => k.atYield n (f s)
  | yield k, 0, s => some (k, s)
  | yield k, n + 1, s => k.atYield n s

/-- The outcome when `f` happens at yield `n`, if there is one. -/
def delivered (f : σ → σ) (p : Prog σ α) (n : Nat) (s : σ) : Option (α × σ) :=
  (p.atYield n s).map fun rest => rest.1.run (f rest.2)

/-- Nothing that the program does, on any path, depends on `f` or disturbs it. -/
def Independent (f : σ → σ) : Prog σ α → Prop
  | done _ => True
  | read k => (∀ s, k (f s) = k s) ∧ ∀ s, (k s).Independent f
  | update g k => (∀ s, g (f s) = f (g s)) ∧ k.Independent f
  | yield k => k.Independent f

/-- The last thing this run does is to yield. -/
def EndsInYield (p : Prog σ α) (s : σ) : Prop :=
  ∃ n, ∀ (β : Type) (q : α → Prog σ β),
    (p.bind q).atYield n s = some (q (p.run s).1, (p.run s).2)

/-! ## Sequences -/

theorem run_bind (p : Prog σ α) (q : α → Prog σ β) (s : σ) :
    (p.bind q).run s = (q (p.run s).1).run (p.run s).2 := by
  induction p generalizing s with
  | done a => rw [bind, run]
  | read k ih => exact ih s s
  | update f k ih => exact ih (f s)
  | yield k ih => exact ih s

theorem bind_assoc {γ : Type} (p : Prog σ α) (q : α → Prog σ β) (r : β → Prog σ γ) :
    (p.bind q).bind r = p.bind fun a => (q a).bind r := by
  induction p with
  | done a => rfl
  | read k ih => exact congrArg read (funext ih)
  | update f k ih => exact congrArg (update f) ih
  | yield k ih => exact congrArg yield ih

theorem atYield_run {p rest : Prog σ α} {n : Nat} {s s' : σ}
    (h : p.atYield n s = some (rest, s')) : rest.run s' = p.run s := by
  induction p generalizing n s with
  | done a => exact (nomatch h)
  | read k ih => exact ih s h
  | update f k ih => exact ih h
  | yield k ih =>
    cases n with
    | zero =>
      obtain ⟨rfl, rfl⟩ := Prod.mk.inj (Option.some.inj h)
      rfl
    | succ n => exact ih h

/-- A yield of the first program is one of the sequence. -/
theorem atYield_bind {p rest : Prog σ α} {n : Nat} {s s' : σ}
    (h : p.atYield n s = some (rest, s')) (q : α → Prog σ β) :
    (p.bind q).atYield n s = some (rest.bind q, s') := by
  induction p generalizing n s with
  | done a => exact (nomatch h)
  | read k ih => exact ih s h
  | update f k ih => exact ih h
  | yield k ih =>
    cases n with
    | zero =>
      obtain ⟨rfl, rfl⟩ := Prod.mk.inj (Option.some.inj h)
      rfl
    | succ n => exact ih h

/-- The yields behind those of the first program are those of the second. -/
theorem atYield_bind_add (p : Prog σ α) (q : α → Prog σ β) (n : Nat) (s : σ) :
    (p.bind q).atYield (p.yields s + n) s = (q (p.run s).1).atYield n (p.run s).2 := by
  induction p generalizing s with
  | done a => rw [yields, Nat.zero_add]; rfl
  | read k ih => exact ih s s
  | update f k ih => exact ih (f s)
  | yield k ih =>
    rw [yields, Nat.add_right_comm]
    exact ih s

/-- A yield of a sequence is one of the first program or one of the second. -/
theorem atYield_bind_cases {p : Prog σ α} {q : α → Prog σ β} {n : Nat} {s s' : σ}
    {rest : Prog σ β} (h : (p.bind q).atYield n s = some (rest, s')) :
    (∃ first, p.atYield n s = some (first, s') ∧ rest = first.bind q) ∨
      ∃ m, (q (p.run s).1).atYield m (p.run s).2 = some (rest, s') := by
  induction p generalizing n s with
  | done a => exact Or.inr ⟨n, h⟩
  | read k ih => exact ih s h
  | update f k ih => exact ih h
  | yield k ih =>
    cases n with
    | zero =>
      obtain ⟨rfl, rfl⟩ := Prod.mk.inj (Option.some.inj h)
      exact Or.inl ⟨k, rfl, rfl⟩
    | succ n => exact ih h

theorem EndsInYield.read {k : σ → Prog σ α} {s : σ} (h : (k s).EndsInYield s) :
    (Prog.read k).EndsInYield s := h

theorem EndsInYield.bind {p : Prog σ α} {q : α → Prog σ β} {s : σ}
    (h : (q (p.run s).1).EndsInYield (p.run s).2) : (p.bind q).EndsInYield s := by
  obtain ⟨n, hn⟩ := h
  refine ⟨p.yields s + n, fun γ r => ?_⟩
  rw [bind_assoc, atYield_bind_add, hn, run_bind]

/-- An update and a yield, with nothing behind them or with what ends in a yield itself. -/
theorem endsInYield_update {f : σ → σ} {k : Prog σ α} {s : σ}
    (h : (∃ a, k = done a) ∨ k.EndsInYield (f s)) : (update f (yield k)).EndsInYield s := by
  rcases h with ⟨a, rfl⟩ | ⟨n, hn⟩
  · exact ⟨0, fun _ _ => rfl⟩
  · exact ⟨n + 1, hn⟩

/-- What can happen at the last yield of the first program. -/
theorem EndsInYield.delivered {p : Prog σ α} {s : σ} (h : p.EndsInYield s) (q : α → Prog σ β)
    (f : σ → σ) :
    ∃ n, (p.bind q).delivered f n s = some ((q (p.run s).1).run (f (p.run s).2)) := by
  obtain ⟨n, hn⟩ := h
  exact ⟨n, by rw [Prog.delivered, hn]; rfl⟩

/-! ## Independence -/

section Independent

variable {f : σ → σ} {p rest : Prog σ α} {n : Nat} {s s' : σ}

theorem Independent.run (h : p.Independent f) : p.run (f s) = ((p.run s).1, f (p.run s).2) := by
  induction p generalizing s with
  | done a => rfl
  | read k ih =>
    show (k (f s)).run (f s) = _
    rw [h.1 s]
    exact ih s (h.2 s)
  | update g k ih =>
    show k.run (g (f s)) = _
    rw [h.1 s]
    exact ih h.2
  | yield k ih => exact ih h

theorem Independent.atYield (h : p.Independent f) (hat : p.atYield n s = some (rest, s')) :
    rest.Independent f := by
  induction p generalizing n s with
  | done a => exact (nomatch hat)
  | read k ih => exact ih s (h.2 s) hat
  | update g k ih => exact ih h.2 hat
  | yield k ih =>
    cases n with
    | zero =>
      obtain ⟨rfl, rfl⟩ := Prod.mk.inj (Option.some.inj hat)
      exact h
    | succ n => exact ih h hat

theorem Independent.bind {q : α → Prog σ β} (h : p.Independent f)
    (hq : ∀ a, (q a).Independent f) : (p.bind q).Independent f := by
  induction p with
  | done a => exact hq a
  | read k ih => exact ⟨fun s => congrArg (fun p => p.bind q) (h.1 s), fun s => ih s (h.2 s)⟩
  | update g k ih => exact ⟨h.1, ih h.2⟩
  | yield k ih => exact ih h

/-- **The rest does not care**: the outcome is that of the program and then `f`. -/
theorem delivered_after (hat : p.atYield n s = some (rest, s')) (h : rest.Independent f) :
    p.delivered f n s = some ((p.run s).1, f (p.run s).2) := by
  rw [delivered, hat]
  show some (rest.run (f s')) = _
  rw [h.run, atYield_run hat]

/-- **The first part does not care**: the outcome is that of `f` and then the program. -/
theorem delivered_before {q : α → Prog σ β} (h : p.Independent f)
    (hat : p.atYield n s = some (rest, s')) :
    (p.bind q).delivered f n s = some ((p.bind q).run (f s)) := by
  rw [delivered, atYield_bind hat]
  show some ((rest.bind q).run (f s')) = _
  rw [run_bind, run_bind, (h.atYield hat).run, h.run, atYield_run hat]

end Independent

end Prog

end KeyboardFirmware.Lib
