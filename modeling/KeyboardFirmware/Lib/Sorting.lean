/-
  Sorting functions a library provides.

  A library's sort promises an arrangement of the list in order, and nothing about equal elements.
  `Sorting r` is any function with that promise; where the order is total and antisymmetric on the list, the
  result is the same for all of them.
-/
import Mathlib.Data.List.Sort

namespace KeyboardFirmware.Lib

/-- A function that sorts by `r`. -/
structure Sorting {α : Type*} (r : α → α → Prop) where
  sort : List α → List α
  perm : ∀ l, (sort l).Perm l
  sorted : ∀ l, (sort l).Pairwise r

variable {α : Type*} {r : α → α → Prop}

@[simp] theorem Sorting.mem_sort (s : Sorting r) {l : List α} {a : α} : a ∈ s.sort l ↔ a ∈ l :=
  (s.perm l).mem_iff

@[simp] theorem Sorting.length_sort (s : Sorting r) (l : List α) : (s.sort l).length = l.length :=
  (s.perm l).length_eq

/-- Insertion sort is one, for a total order that can be decided. -/
def Sorting.insertion (r : α → α → Prop) [DecidableRel r] (total : ∀ a b, r a b ∨ r b a)
    (trans : ∀ a b c, r a b → r b c → r a c) : Sorting r where
  sort := List.insertionSort r
  perm := List.perm_insertionSort r
  sorted l :=
    haveI : Std.Total r := ⟨total⟩
    haveI : IsTrans α r := ⟨trans⟩
    List.pairwise_insertionSort r l

end KeyboardFirmware.Lib
