/-
  `sort.c`: the insertion sort the firmware uses on arrays of unsigned bytes.

  The array `base` is the list of the bytes it points at, and everything the function writes is a
  `List.set`, so what lies behind the first `nmemb` bytes is visible in the result.  The inner
  loop runs from the back of the sorted part to the front; `insertLoop_append` says what one run
  of it does to `pre ++ x :: suf`, and `insertionsort_spec` puts the outer loop around it.
-/
import Mathlib

namespace KeyboardFirmware

/-- `uint8_t`. -/
abbrev Byte := Fin 256

/-! The literals and casts of `uint8_t` and `uint16_t` go through these two instances, and a
    search for a byte in a list through the third. -/

instance byteNeZero : NeZero 256 := ⟨by decide⟩

instance shortNeZero : NeZero 65536 := ⟨by decide⟩

instance byteLawfulBEq : LawfulBEq Byte := inferInstance

/-- Two bytes make a short. -/
theorem twoBytes_lt (low high : Byte) : low.val + 256 * high.val < 65536 := by omega

/-- The inner loop of `insertionsort_uint8` with `j` as its counter: move larger elements up one
    place until the slot for `val` is reached, and store it there. -/
def insertLoop (base : List Byte) (val : Byte) : Nat → List Byte
  | 0 => base.set 0 val
  | j + 1 =>
    if base.getD j 0 > val then insertLoop (base.set (j + 1) (base.getD j 0)) val j
    else base.set (j + 1) val

/-- `insertionsort_uint8`: insert `base[i]` into `base[0 .. i-1]` for `i = 1 .. nmemb-1`. -/
def insertionsortUint8 (base : List Byte) (nmemb : Nat) : List Byte :=
  (List.range' 1 (nmemb - 1)).foldl (fun b i => insertLoop b (b.getD i 0) i) base

/-! ## One insertion -/

/-- The slot at `pre.length` is overwritten (`x` is lost), `val` joins the sorted prefix, and the
    bytes behind the slot stay.  Induction on the prefix from its right end, as the loop runs. -/
theorem insertLoop_append (val : Byte) : ∀ (pre : List Byte) (x : Byte) (suf : List Byte),
    pre.SortedLE → ∃ out : List Byte, insertLoop (pre ++ x :: suf) val pre.length = out ++ suf ∧
      out.Perm (val :: pre) ∧ out.SortedLE := by
  intro pre
  induction pre using List.reverseRecOn with
  | nil =>
    intro x suf _
    exact ⟨[val], by simp [insertLoop], List.Perm.refl _, by simp [List.sortedLE_iff_pairwise]⟩
  | append_singleton pre p ih =>
    intro x suf hs
    have hpre : pre.SortedLE := by
      rw [List.sortedLE_iff_pairwise, List.pairwise_append] at hs
      rw [List.sortedLE_iff_pairwise]; exact hs.1
    have hlast : ∀ a ∈ pre, a ≤ p := by
      rw [List.sortedLE_iff_pairwise, List.pairwise_append] at hs
      exact fun a ha => hs.2.2 a ha p (by simp)
    have hget : (pre ++ [p] ++ x :: suf).getD pre.length 0 = p := by simp
    have hlen : (pre ++ [p]).length = pre.length + 1 := by simp
    rw [hlen, insertLoop, hget]
    split
    · next hgt =>
      -- `p` moves up into the slot of `x`, and the search goes on in front of it
      have hset : (pre ++ [p] ++ x :: suf).set (pre.length + 1) p = pre ++ p :: (p :: suf) := by
        simp
      rw [hset]
      obtain ⟨out, hout, hperm, hsort⟩ := ih p (p :: suf) hpre
      refine ⟨out ++ [p], by simp [hout], ?_, ?_⟩
      · exact (hperm.append_right [p]).trans (by simp)
      · rw [List.sortedLE_iff_pairwise, List.pairwise_append]
        refine ⟨by rw [← List.sortedLE_iff_pairwise]; exact hsort, by simp, ?_⟩
        intro a ha b hb
        obtain rfl : b = p := by simpa using hb
        rcases List.mem_cons.mp (hperm.mem_iff.mp ha) with rfl | ha'
        · exact le_of_lt hgt
        · exact hlast a ha'
    · next hle =>
      refine ⟨pre ++ [p] ++ [val], by simp, ?_, ?_⟩
      · exact List.perm_append_comm
      · rw [List.sortedLE_iff_pairwise, List.pairwise_append]
        refine ⟨by rw [← List.sortedLE_iff_pairwise]; exact hs, by simp, ?_⟩
        intro a ha b hb
        obtain rfl : b = val := by simpa using hb
        have hp : p ≤ b := not_lt.mp hle
        rcases List.mem_append.mp ha with ha' | ha'
        · exact le_trans (hlast a ha') hp
        · obtain rfl : a = p := by simpa using ha'
          exact hp

/-! ## The whole sort -/

/-- The outer loop after its first `k` rounds: the first `k + 1` bytes are sorted, the rest is as
    it was. -/
theorem insertionsort_rounds (front suf : List Byte) : ∀ (k : Nat) (base : List Byte),
    k + 1 ≤ front.length → base = front ++ suf →
    ∃ out : List Byte, (List.range' 1 k).foldl (fun b i => insertLoop b (b.getD i 0) i) base
        = out ++ (front.drop (k + 1) ++ suf) ∧
      out.Perm (front.take (k + 1)) ∧ out.SortedLE := by
  intro k
  induction k with
  | zero =>
    intro base hk hb
    obtain ⟨a, t, rfl⟩ : ∃ a t, front = a :: t := by
      cases front with
      | nil => simp at hk
      | cons a t => exact ⟨a, t, rfl⟩
    exact ⟨[a], by simp [hb], by simp, by simp [List.sortedLE_iff_pairwise]⟩
  | succ k ih =>
    intro base hk hb
    obtain ⟨out, hout, hperm, hsort⟩ := ih base (by omega) hb
    have hlen : out.length = k + 1 := by rw [hperm.length_eq, List.length_take]; omega
    rw [List.range'_1_concat, List.foldl_append, hout]
    have hdrop : front.drop (k + 1) = front[k + 1] :: front.drop (k + 2) :=
      List.drop_eq_getElem_cons (by omega)
    rw [hdrop]
    have hget : (out ++ (front[k + 1] :: front.drop (k + 2) ++ suf)).getD (1 + k) 0
        = front[k + 1] := by
      rw [List.getD_eq_getElem?_getD, List.getElem?_append_right (by omega), hlen,
        show 1 + k - (k + 1) = 0 from by omega]
      rfl
    obtain ⟨out', hout', hperm', hsort'⟩ :=
      insertLoop_append front[k + 1] out front[k + 1] (front.drop (k + 2) ++ suf) hsort
    refine ⟨out', ?_, ?_, hsort'⟩
    · rw [List.foldl_cons, List.foldl_nil, hget, show 1 + k = out.length from by omega]
      exact hout'
    · refine hperm'.trans ((List.Perm.cons _ hperm).trans ?_)
      rw [@List.take_add_one _ _ (k + 1), List.getElem?_eq_getElem (by omega)]
      exact (List.perm_append_singleton _ _).symm

/-- **`insertionsort_uint8` sorts**: the first `nmemb` bytes become an ascending permutation of
    themselves and the bytes behind them are untouched. -/
theorem insertionsort_spec (front suf : List Byte) :
    ∃ out : List Byte, insertionsortUint8 (front ++ suf) front.length = out ++ suf ∧
      out.Perm front ∧ out.SortedLE := by
  rcases Nat.eq_zero_or_pos front.length with h0 | hpos
  · obtain rfl : front = [] := List.length_eq_zero_iff.mp h0
    exact ⟨[], by simp [insertionsortUint8], List.Perm.refl _, by simp [List.sortedLE_iff_pairwise]⟩
  · obtain ⟨out, hout, hperm, hsort⟩ :=
      insertionsort_rounds front suf (front.length - 1) (front ++ suf) (by omega) rfl
    rw [show front.length - 1 + 1 = front.length from by omega] at hout hperm
    refine ⟨out, ?_, by simpa using hperm, hsort⟩
    rw [insertionsortUint8, hout]
    simp

example : insertionsortUint8 [9, 4, 7, 1] 3 = [4, 7, 9, 1] := by decide

end KeyboardFirmware
