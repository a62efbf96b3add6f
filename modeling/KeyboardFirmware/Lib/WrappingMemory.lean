/-
  Flat memory whose addresses wrap at its end: the cells at an address and behind, a list that is
  written there, and the move of a range.

  A move may be done in parts, from the front when the
  destination lies before the source (`moveRange_front`) and from the back when it lies behind
  (`moveRange_back`): in either case a part does not touch what the next parts read.
-/
import Mathlib

namespace KeyboardFirmware.Lib

variable {N : Nat} {β : Type*}

/-- The memory with `data` at `dst` and behind. -/
def writeRange (m : Fin N → β) (dst : Fin N) (data : List β) : Fin N → β :=
  fun a => (data[(a - dst).val]?).getD (m a)

/-- The `n` cells at `src` and behind. -/
def readRange [NeZero N] (m : Fin N → β) (src : Fin N) (n : Nat) : List β :=
  (List.range n).map fun i => m (src + Fin.ofNat N i)

/-- The move of a range: at the destination lies what lay at the source, and nothing else changes. -/
def moveRange [NeZero N] (m : Fin N → β) (dst src : Fin N) (count : Nat) : Fin N → β :=
  writeRange m dst (readRange m src count)

variable {m m' : Fin N → β} {a dst src : Fin N} {n k : Nat} {xs ys : List β}

/-! ## Writing -/

theorem writeRange_nil (m : Fin N → β) (dst : Fin N) : writeRange m dst [] = m := rfl

/-- Behind the data and before it, nothing changes. -/
theorem writeRange_of_le (h : xs.length ≤ (a - dst).val) : writeRange m dst xs a = m a := by
  rw [writeRange, List.getElem?_eq_none h]
  rfl

theorem writeRange_of_lt (h : (a - dst).val < xs.length) : writeRange m dst xs a = xs[(a - dst).val] := by
  rw [writeRange, List.getElem?_eq_getElem h]
  rfl

variable [NeZero N]

/-! ## Offsets -/

/-- The offset from an address that lies `n` further. -/
theorem val_sub_add (a dst : Fin N) (hn : n ≤ N) : (a - (dst + Fin.ofNat N n)).val =
    if (a - dst).val < n then (a - dst).val + N - n else (a - dst).val - n := by
  rw [← sub_sub]
  generalize a - dst = k
  have hk := k.isLt
  rw [Fin.sub_def]
  show (N - n % N + k.val) % N = _
  rcases Nat.lt_or_eq_of_le hn with hlt | rfl
  · rw [Nat.mod_eq_of_lt hlt]
    split
    · next h => rw [Nat.mod_eq_of_lt (by omega)]; omega
    · next h =>
      rw [show N - n + k.val = k.val - n + N by omega, Nat.add_mod_right]
      exact Nat.mod_eq_of_lt (by omega)
  · rw [Nat.mod_self, Nat.sub_zero, Nat.add_mod_left, Nat.mod_eq_of_lt hk, if_pos hk]
    omega

theorem val_add_ofNat (h : a.val + n < N) : (a + Fin.ofNat N n).val = a.val + n := by
  rw [Fin.val_add]
  show (a.val + n % N) % N = _
  rw [Nat.mod_eq_of_lt (show n < N by omega), Nat.mod_eq_of_lt h]

theorem ofNat_add_ofNat (n k : Nat) : Fin.ofNat N n + Fin.ofNat N k = Fin.ofNat N (n + k) := by
  apply Fin.ext
  rw [Fin.val_add]
  exact (Nat.add_mod n k N).symm

theorem add_ofNat_add (a : Fin N) (n k : Nat) :
    a + Fin.ofNat N (n + k) = a + Fin.ofNat N n + Fin.ofNat N k := by
  rw [add_assoc, ofNat_add_ofNat]

/-! ## Several lists -/

/-- Two lists are written one behind the other. -/
theorem writeRange_append (m : Fin N → β) (dst : Fin N) (h : (xs ++ ys).length ≤ N) :
    writeRange m dst (xs ++ ys) =
      writeRange (writeRange m dst xs) (dst + Fin.ofNat N xs.length) ys := by
  rw [List.length_append] at h
  funext a
  have ha := (a - dst).isLt
  have hoff := val_sub_add a dst (show xs.length ≤ N by omega)
  by_cases hin : (a - dst).val < xs.length
  · rw [if_pos hin] at hoff
    rw [writeRange_of_le (show ys.length ≤ (a - (dst + Fin.ofNat N xs.length)).val by omega), writeRange,
      writeRange, List.getElem?_append_left hin]
  · rw [if_neg hin] at hoff
    rw [writeRange, writeRange, hoff, List.getElem?_append_right (by omega), writeRange_of_le (by omega)]

/-- They may be written in either order. -/
theorem writeRange_append_back (m : Fin N → β) (dst : Fin N) (h : (xs ++ ys).length ≤ N) :
    writeRange m dst (xs ++ ys) =
      writeRange (writeRange m (dst + Fin.ofNat N xs.length) ys) dst xs := by
  rw [writeRange_append m dst h]
  rw [List.length_append] at h
  funext a
  have ha := (a - dst).isLt
  have hoff := val_sub_add a dst (show xs.length ≤ N by omega)
  by_cases hin : (a - dst).val < xs.length
  · rw [if_pos hin] at hoff
    rw [writeRange_of_le (show ys.length ≤ (a - (dst + Fin.ofNat N xs.length)).val by omega),
      writeRange_of_lt hin, writeRange_of_lt hin]
  · have hout : xs.length ≤ (a - dst).val := Nat.not_lt.mp hin
    rw [writeRange_of_le hout]
    show (ys[_]?).getD (writeRange m dst xs a) = (ys[_]?).getD (m a)
    rw [writeRange_of_le hout]

theorem writeRange_cons (m : Fin N → β) (dst : Fin N) (b : β) (h : (b :: xs).length ≤ N) :
    writeRange m dst (b :: xs) = writeRange (Function.update m dst b) (dst + 1) xs := by
  have hone : writeRange m dst [b] = Function.update m dst b := by
    funext a
    rw [writeRange, Function.update_apply]
    by_cases ha : a = dst
    · rw [if_pos ha, ha, sub_self]
      rfl
    · have hpos : (a - dst).val ≠ 0 := fun hz => ha (sub_eq_zero.mp (Fin.ext hz))
      rw [if_neg ha, List.getElem?_eq_none (by simp only [List.length_singleton]; omega)]
      rfl
  rw [← List.singleton_append, writeRange_append m dst h, hone]
  rfl

/-- One more cell behind the others. -/
theorem writeRange_snoc (m : Fin N → β) (dst : Fin N) (b : β) (h : xs.length < N) :
    writeRange m dst (xs ++ [b]) =
      Function.update (writeRange m dst xs) (dst + Fin.ofNat N xs.length) b := by
  rw [writeRange_append m dst (by rw [List.length_append, List.length_singleton]; omega), writeRange_cons,
    writeRange_nil]
  rw [List.length_singleton]
  omega

/-! ## Reading -/

@[simp] theorem readRange_length (m : Fin N → β) (src : Fin N) (n : Nat) :
    (readRange m src n).length = n := by
  rw [readRange, List.length_map, List.length_range]

theorem readRange_getElem (m : Fin N → β) (src : Fin N) (n : Nat) {i : Nat}
    (h : i < (readRange m src n).length) : (readRange m src n)[i] = m (src + Fin.ofNat N i) := by
  simp only [readRange, List.getElem_map, List.getElem_range]

theorem readRange_succ (m : Fin N → β) (src : Fin N) (n : Nat) :
    readRange m src (n + 1) = m src :: readRange m (src + 1) n := by
  rw [readRange, List.range_succ_eq_map, List.map_cons, List.map_map]
  have hzero : src + Fin.ofNat N 0 = src := by
    rw [Fin.ofNat_zero, add_zero]
  have hrest : ∀ i, src + Fin.ofNat N (i + 1) = src + 1 + Fin.ofNat N i := by
    intro i
    rw [Nat.add_comm i 1]
    exact add_ofNat_add src 1 i
  rw [hzero]
  congr 1
  exact List.map_congr_left fun i _ => congrArg m (hrest i)

theorem readRange_add (m : Fin N → β) (src : Fin N) (n k : Nat) :
    readRange m src (n + k) = readRange m src n ++ readRange m (src + Fin.ofNat N n) k := by
  rw [readRange, List.range_add, List.map_append, List.map_map]
  congr 1
  exact List.map_congr_left fun i _ => congrArg m (add_ofNat_add src n i)

theorem readRange_congr (h : ∀ i < n, m (src + Fin.ofNat N i) = m' (src + Fin.ofNat N i)) :
    readRange m src n = readRange m' src n :=
  List.map_congr_left fun i hi => h i (List.mem_range.mp hi)

/-! ## Moving -/

/-- What lies at the destination. -/
theorem moveRange_dst (m : Fin N → β) (dst src : Fin N) {i : Nat} (hi : i < n) (hn : n ≤ N) :
    moveRange m dst src n (dst + Fin.ofNat N i) = m (src + Fin.ofNat N i) := by
  have hval : (dst + Fin.ofNat N i - dst).val = i := by
    rw [add_sub_cancel_left]
    exact Nat.mod_eq_of_lt (by omega)
  rw [moveRange, writeRange_of_lt (by rw [hval, readRange_length]; exact hi), readRange_getElem, hval]

/-- **A move from the front**: the first `n` cells, and then the others, when the destination does not
    lie behind the source. -/
theorem moveRange_front (m : Fin N → β) (hle : dst ≤ src) (hend : src.val + (n + k) ≤ N) :
    moveRange m dst src (n + k) =
      moveRange (moveRange m dst src n) (dst + Fin.ofNat N n) (src + Fin.ofNat N n) k := by
  have hsame : readRange (moveRange m dst src n) (src + Fin.ofNat N n) k =
      readRange m (src + Fin.ofNat N n) k := by
    apply readRange_congr
    intro i hi
    apply writeRange_of_le
    have hval : (src + Fin.ofNat N n + Fin.ofNat N i).val = src.val + (n + i) := by
      rw [← add_ofNat_add]
      exact val_add_ofNat (by omega)
    have hle' : dst ≤ src + Fin.ofNat N n + Fin.ofNat N i := by
      rw [Fin.le_def, hval]
      exact Nat.le_trans hle (Nat.le_add_right _ _)
    have hdst : dst.val ≤ src.val := hle
    rw [readRange_length, Fin.sub_val_of_le hle', hval]
    omega
  have hlen : (readRange m src n ++ readRange m (src + Fin.ofNat N n) k).length ≤ N := by
    rw [List.length_append, readRange_length, readRange_length]
    omega
  rw [moveRange, readRange_add, writeRange_append _ _ hlen, readRange_length, ← hsame]
  rfl

/-- **A move from the back**: the last `n` cells, and then those before, when the source does not lie
    behind the destination. -/
theorem moveRange_back (m : Fin N → β) (hle : src ≤ dst) (hend : dst.val + (k + n) ≤ N) :
    moveRange m dst src (k + n) =
      moveRange (moveRange m (dst + Fin.ofNat N k) (src + Fin.ofNat N k) n) dst src k := by
  have hsame : readRange (moveRange m (dst + Fin.ofNat N k) (src + Fin.ofNat N k) n) src k =
      readRange m src k := by
    apply readRange_congr
    intro i hi
    apply writeRange_of_le
    have hdst : src.val ≤ dst.val := hle
    have hoff := val_sub_add (src + Fin.ofNat N i) dst (show k ≤ N by omega)
    have hval : (src + Fin.ofNat N i).val = src.val + i := val_add_ofNat (by omega)
    have hsub : (src + Fin.ofNat N i - dst).val = (N - dst.val + (src.val + i)) % N := by
      rw [Fin.sub_def, ← hval]
    rw [readRange_length, hoff]
    rcases Nat.lt_or_ge (src.val + i) dst.val with hlt | hge
    · rw [Nat.mod_eq_of_lt (by omega)] at hsub
      split <;> omega
    · rw [show N - dst.val + (src.val + i) = src.val + i - dst.val + N by omega, Nat.add_mod_right,
        Nat.mod_eq_of_lt (by omega)] at hsub
      rw [if_pos (by omega)]
      omega
  have hlen : (readRange m src k ++ readRange m (src + Fin.ofNat N k) n).length ≤ N := by
    rw [List.length_append, readRange_length, readRange_length]
    omega
  rw [moveRange, readRange_add, writeRange_append_back _ _ hlen, readRange_length, ← hsame]
  rfl

end KeyboardFirmware.Lib
