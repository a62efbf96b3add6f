/-
  Binary heaps with their elements numbered from 1: the parent of element `j` is element `j / 2`.

  A heap that is being built is in order from one element on (`HeapFrom`).  An element that sinks leaves
  its own place out of order until it has found it (`SinksAt`); when elements are moved into a hole
  instead, what the hole holds is a copy of a neighbour, and the order is never broken.
-/
import Mathlib

namespace KeyboardFirmware.Lib

variable {α : Type*} [LinearOrder α] {a a' : Nat → α} {lo n p c : Nat} {k : α}

/-- No element is above its parent, for the parents from `lo` on. -/
def HeapFrom (lo n : Nat) (a : Nat → α) : Prop := ∀ j, lo ≤ j / 2 → j ≤ n → a j ≤ a (j / 2)

/-- Among the children of `p`, the child `c` is the largest. -/
structure LargestChild (n : Nat) (a : Nat → α) (p c : Nat) : Prop where
  parent : c / 2 = p
  le : c ≤ n
  largest : ∀ j, j / 2 = p → j ≤ n → a j ≤ a c

/-- The heap is in order but for the place `p`: the element there may be below its children, which are
    not above the parent of `p`. -/
structure SinksAt (lo n p : Nat) (a : Nat → α) : Prop where
  off : ∀ j, lo ≤ j / 2 → j ≤ n → j / 2 ≠ p → a j ≤ a (j / 2)
  below : lo ≤ p / 2 → ∀ j, j / 2 = p → j ≤ n → a j ≤ a (p / 2)

/-- The root is the largest element. -/
theorem HeapFrom.le_root (h : HeapFrom 1 n a) : ∀ i, 1 ≤ i → i ≤ n → a i ≤ a 1 := by
  intro i
  induction i using Nat.strongRecOn with
  | ind i ih =>
    intro hpos hle
    rcases Nat.lt_or_eq_of_le hpos with hlt | rfl
    · exact (h i (by omega) hle).trans (ih (i / 2) (by omega) (by omega) (by omega))
    · exact le_rfl

/-! ## Sinking -/

/-- The next element before a heap begins to sink. -/
theorem SinksAt.start (h : HeapFrom (lo + 1) n a) (hlo : 1 ≤ lo) : SinksAt lo n lo a where
  off := by
    intro j hj hn hne
    exact h j (by omega) hn
  below := by
    intro hle
    omega

/-- It has sunk when it is not below its children. -/
theorem SinksAt.done (h : SinksAt lo n p a) (hchildren : ∀ j, j / 2 = p → j ≤ n → a j ≤ a p) :
    HeapFrom lo n a := by
  intro j hj hn
  by_cases hp : j / 2 = p
  · rw [hp]
    exact hchildren j hp hn
  · exact h.off j hj hn hp

/-- It changes places with its largest child. -/
theorem SinksAt.swap (h : SinksAt lo n p a) (hlo : 1 ≤ lo) (hp : lo ≤ p) (hc : LargestChild n a p c)
    (hlt : a p < a c) : SinksAt lo n c (Function.update (Function.update a p (a c)) c (a p)) := by
  have hchild := hc.parent
  have hother : ∀ i, i ≠ p → i ≠ c →
      Function.update (Function.update a p (a c)) c (a p) i = a i := by
    intro i hip hic
    rw [Function.update_of_ne hic, Function.update_of_ne hip]
  have hat : Function.update (Function.update a p (a c)) c (a p) p = a c := by
    rw [Function.update_of_ne (by omega), Function.update_self]
  constructor
  · intro j hj hn hne
    by_cases hjp : j / 2 = p
    · rw [hjp, hat]
      by_cases hjc : j = c
      · rw [hjc, Function.update_self]
        exact hlt.le
      · rw [hother j (by omega) hjc]
        exact hc.largest j hjp hn
    · rw [hother (j / 2) hjp hne]
      by_cases hjp' : j = p
      · rw [hjp', hat]
        exact h.below (by omega) c hchild hc.le
      · rw [hother j hjp' (by omega)]
        exact h.off j hj hn hjp
  · intro _ j hj hn
    rw [hchild, hat, hother j (by omega) (by omega), ← hj]
    exact h.off j (by omega) hn (by omega)

/-! ## A hole -/

/-- The largest child moves into the hole above it. -/
theorem HeapFrom.fill_from_child (h : HeapFrom 1 n a) (hp : 1 ≤ p) (hc : LargestChild n a p c) :
    HeapFrom 1 n (Function.update a p (a c)) := by
  have hchild := hc.parent
  intro j hj hn
  by_cases hjp : j / 2 = p
  · rw [hjp, Function.update_self, Function.update_of_ne (by omega)]
    exact hc.largest j hjp hn
  · rw [Function.update_of_ne hjp]
    by_cases hjp' : j = p
    · rw [hjp', Function.update_self]
      have hup := h c (by omega) hc.le
      rw [hchild] at hup
      exact hup.trans (h p (by omega) (by omega))
    · rw [Function.update_of_ne hjp']
      exact h j hj hn

/-- The parent moves into the hole below it. -/
theorem HeapFrom.fill_from_parent (h : HeapFrom 1 n a) (hc : 2 ≤ c) (hle : c ≤ n) :
    HeapFrom 1 n (Function.update a c (a (c / 2))) := by
  intro j hj hn
  by_cases hjc : j / 2 = c
  · rw [hjc, Function.update_self, Function.update_of_ne (by omega)]
    have hup := h j hj hn
    rw [hjc] at hup
    exact hup.trans (h c (by omega) hle)
  · rw [Function.update_of_ne hjc]
    by_cases hjc' : j = c
    · rw [hjc', Function.update_self]
    · rw [Function.update_of_ne hjc']
      exact h j hj hn

/-- An element between the neighbours of the hole fills it. -/
theorem HeapFrom.fill (h : HeapFrom 1 n a) (hbelow : ∀ j, j / 2 = c → j ≤ n → a j ≤ k) (hc : 1 ≤ c)
    (habove : c = 1 ∨ k ≤ a (c / 2)) : HeapFrom 1 n (Function.update a c k) := by
  intro j hj hn
  by_cases hjc : j / 2 = c
  · rw [hjc, Function.update_self, Function.update_of_ne (by omega)]
    exact hbelow j hjc hn
  · rw [Function.update_of_ne hjc]
    by_cases hjc' : j = c
    · rw [hjc', Function.update_self]
      rcases habove with hroot | hle
      · omega
      · exact hle
    · rw [Function.update_of_ne hjc']
      exact h j hj hn

end KeyboardFirmware.Lib
