/-
  A linear sweep: items are read one behind the other, from a place on until an end is reached.

  What reads an item says where the next one starts, further on, so that every sweep comes to an end.
  It has a result exactly when each item it comes to can be read (`sweep_isSome_iff`); the result is a
  row of items that stand one behind the other (`sweep_eq_some_iff`).
-/
import Mathlib.Tactic.Common

namespace KeyboardFirmware.Lib

/-- Reads the item at a place, and says where the next one starts. -/
structure Reader (α : Type*) where
  read : Nat → Option (Nat × α)
  lt : ∀ {a b x}, read a = some (b, x) → a < b

namespace Reader

variable {α : Type*} (r : Reader α) {stop a b c : Nat} {x : α} {xs ys : List α}

/-- The items from `a` on, up to the first place that is not before `stop`. -/
def sweep (stop a : Nat) : Option (List α) :=
  if a < stop then
    match _h : r.read a with
    | none => none
    | some (b, x) => (sweep stop b).map (x :: ·)
  else some []
  termination_by stop - a
  decreasing_by exact Nat.sub_lt_sub_left ‹_› (r.lt _h)

/-- The items stand one behind the other from `a` on, and all start before `stop`. -/
inductive Row (stop : Nat) : Nat → List α → Prop
  | done {a : Nat} : stop ≤ a → Row stop a []
  | item {a b : Nat} {x : α} {xs : List α} : a < stop → r.read a = some (b, x) → Row stop b xs →
      Row stop a (x :: xs)

/-- A sweep from `a` comes to `b`. -/
inductive Meets (stop a : Nat) : Nat → Prop
  | start : Meets stop a a
  | next {b c : Nat} {x : α} : Meets stop a b → b < stop → r.read b = some (c, x) → Meets stop a c

variable {r}

theorem sweep_done (h : stop ≤ a) : r.sweep stop a = some [] := by
  rw [sweep, if_neg (Nat.not_lt.mpr h)]

theorem sweep_read (ha : a < stop) (h : r.read a = some (b, x)) :
    r.sweep stop a = (r.sweep stop b).map (x :: ·) := by
  rw [sweep, if_pos ha]
  split
  · rename_i hnone
    exact absurd (hnone.symm.trans h) (by simp)
  · rename_i b' x' hsome
    obtain ⟨rfl, rfl⟩ := Prod.mk.inj (Option.some.inj (hsome.symm.trans h))
    rfl

theorem sweep_none (ha : a < stop) (h : r.read a = none) : r.sweep stop a = none := by
  rw [sweep, if_pos ha]
  split
  · rfl
  · rename_i hsome
    exact absurd (hsome.symm.trans h) (by simp)

/-- **The result of a sweep** is the row of the items. -/
theorem sweep_eq_some_iff : r.sweep stop a = some xs ↔ r.Row stop a xs := by
  constructor
  · intro h
    -- on the distance to the end
    induction hn : stop - a using Nat.strongRecOn generalizing a xs with
    | ind n ih =>
      rcases Nat.lt_or_ge a stop with ha | ha
      · cases hread : r.read a with
        | none =>
          rw [sweep_none ha hread] at h
          cases h
        | some item =>
          obtain ⟨b, x⟩ := item
          rw [sweep_read ha hread] at h
          obtain ⟨ys, hys, rfl⟩ := Option.map_eq_some_iff.mp h
          have hlt := r.lt hread
          exact .item ha hread (ih (stop - b) (by omega) hys rfl)
      · rw [sweep_done ha] at h
        cases h
        exact .done ha
  · intro h
    induction h with
    | done ha => exact sweep_done ha
    | item ha hread _ ih => rw [sweep_read ha hread, ih, Option.map_some]

/-- What is met behind an item is met from the item on. -/
theorem Meets.head (ha : a < stop) (h : r.read a = some (b, x)) (hc : r.Meets stop b c) :
    r.Meets stop a c := by
  induction hc with
  | start => exact .next .start ha h
  | next _ hlt hread ih => exact ih.next hlt hread

/-- **A sweep has a result exactly when every item it comes to can be read.** -/
theorem sweep_isSome_iff : (∃ xs, r.sweep stop a = some xs) ↔
    ∀ b, r.Meets stop a b → b < stop → ∃ item, r.read b = some item := by
  constructor
  · rintro ⟨xs, h⟩ b hb hlt
    replace h := sweep_eq_some_iff.mp h
    -- from every place that is met there is a row to the end
    have hrow : ∃ ys, r.Row stop b ys := by
      induction hb with
      | start => exact ⟨xs, h⟩
      | next _ hc hread ih =>
        obtain ⟨ys, hys⟩ := ih hc
        cases hys with
        | done hge => exact absurd hge (Nat.not_le.mpr hc)
        | item _ hread' hys =>
          obtain ⟨rfl, rfl⟩ := Prod.mk.inj (Option.some.inj (hread.symm.trans hread'))
          exact ⟨_, hys⟩
    obtain ⟨ys, hys⟩ := hrow
    cases hys with
    | done hge => exact absurd hge (Nat.not_le.mpr hlt)
    | item _ hread _ => exact ⟨_, hread⟩
  · intro h
    induction hn : stop - a using Nat.strongRecOn generalizing a with
    | ind n ih =>
      rcases Nat.lt_or_ge a stop with ha | ha
      · obtain ⟨⟨b, x⟩, hread⟩ := h a .start ha
        have hlt := r.lt hread
        obtain ⟨xs, hxs⟩ := ih (stop - b) (by omega) (fun c hc => h c (.head ha hread hc)) rfl
        exact ⟨x :: xs, by rw [sweep_read ha hread, hxs, Option.map_some]⟩
      · exact ⟨[], sweep_done ha⟩

end Reader

end KeyboardFirmware.Lib
