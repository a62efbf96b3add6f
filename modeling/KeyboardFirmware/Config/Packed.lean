/-
  The saved layouts as a packed list of blocks.

  A block is a slot number with the list of its keys, and the array of saved mappings is the blocks
  in their physical order, one after the other from position 0 on.  `Packed` ties the array and the
  slot table to such a list.  Deleting a slot takes its block out (`delete_packed`), saving one puts
  it at the end (`save_packed`), and loading one merges its keys into the default layout
  (`load_packed`); what a slot stands for is then a matter of the list alone.
-/
import KeyboardFirmware.Config.Layout
import Mathlib.Data.List.Flatten

namespace KeyboardFirmware

open Lib

variable {hw : LayoutHardware} {c : Config}

/-- A slot with the keys saved there. -/
abbrev Block := Nat × List KeyMapping

/-- The saved keys of a list of blocks. -/
def entriesOf (blocks : List Block) : List KeyMapping := blocks.flatMap (·.2)

@[simp] theorem entriesOf_nil : entriesOf [] = [] := rfl

@[simp] theorem entriesOf_cons (b : Block) (blocks : List Block) :
    entriesOf (b :: blocks) = b.2 ++ entriesOf blocks := List.flatMap_cons

@[simp] theorem entriesOf_append (xs ys : List Block) :
    entriesOf (xs ++ ys) = entriesOf xs ++ entriesOf ys := List.flatMap_append

/-- A list of saved keys as the save makes it: of logical keys, in ascending order, not empty. -/
structure Saved (hw : LayoutHardware) (es : List KeyMapping) : Prop where
  nonempty : es ≠ []
  ascending : es.Pairwise fun a b => a.lKey < b.lKey
  keys_lt : ∀ m ∈ es, m.lKey.val < hw.numLogicalKeys

/-- The stored layouts are exactly `blocks`. -/
structure Packed (hw : LayoutHardware) (c : Config) (blocks : List Block) : Prop where
  nodup : (blocks.map (·.1)).Nodup
  slots_lt : ∀ b ∈ blocks, b.1 < hw.numKeyMappingIndices
  saved : ∀ b ∈ blocks, Saved hw b.2
  fits : (entriesOf blocks).length ≤ hw.savedMappingCount - 1
  holds : Holds c.savedKeyMappings 0 (entriesOf blocks)
  used : ∀ pre n es post, blocks = pre ++ (n, es) :: post →
    (c.savedKeyMappingIndices n).start.val = (entriesOf pre).length ∧
      (c.savedKeyMappingIndices n).end_.val + 1 = (entriesOf pre).length + es.length
  unused : ∀ n < hw.numKeyMappingIndices, n ∉ blocks.map (·.1) → c.savedKeyMappingIndices n = noIdx

namespace Packed

variable {blocks pre post : List Block} {n : Nat} {es : List KeyMapping}

theorem length_le (h : Packed hw c blocks) : (entriesOf blocks).length ≤ 255 := by
  have := h.fits
  have := hw.count_le
  omega

theorem noKey_val : (noKey : Byte).val = 255 := rfl

/-- A used slot starts before position 255, so it is not taken for an unused one. -/
theorem start_ne (h : Packed hw c (pre ++ (n, es) :: post)) :
    (c.savedKeyMappingIndices n).start ≠ noKey := by
  obtain ⟨hstart, -⟩ := h.used pre n es post rfl
  have hne : 0 < es.length := List.length_pos_iff.mpr (h.saved (n, es) (by simp)).nonempty
  have hlen := h.length_le
  simp only [entriesOf_append, entriesOf_cons, List.length_append] at hlen
  intro heq
  rw [heq, noKey_val] at hstart
  omega

theorem slot_cases (h : Packed hw c blocks) (hn : n < hw.numKeyMappingIndices) :
    (c.savedKeyMappingIndices n = noIdx ∧ n ∉ blocks.map (·.1)) ∨
      ∃ pre es post, blocks = pre ++ (n, es) :: post := by
  by_cases hmem : n ∈ blocks.map (·.1)
  · obtain ⟨⟨m, es⟩, hb, rfl⟩ := List.mem_map.mp hmem
    obtain ⟨pre, post, rfl⟩ := List.append_of_mem hb
    exact .inr ⟨pre, es, post, rfl⟩
  · exact .inl ⟨h.unused n hn hmem, hmem⟩

/-- Every range ends within the packed part. -/
theorem end_le (h : Packed hw c blocks) (hb : (n, es) ∈ blocks) :
    (c.savedKeyMappingIndices n).end_.val + 1 ≤ (entriesOf blocks).length := by
  obtain ⟨pre, post, rfl⟩ := List.append_of_mem hb
  obtain ⟨-, hend⟩ := h.used pre n es post rfl
  rw [hend]
  simp only [entriesOf_append, entriesOf_cons, List.length_append]
  omega

/-- The last block ends where the packed part does. -/
theorem end_last (h : Packed hw c (pre ++ [(n, es)])) :
    (c.savedKeyMappingIndices n).end_.val + 1 = (entriesOf (pre ++ [(n, es)])).length := by
  obtain ⟨-, hend⟩ := h.used pre n es [] rfl
  rw [hend]
  simp only [entriesOf_append, entriesOf_cons, List.length_append, entriesOf_nil, List.length_nil,
    Nat.add_zero]

/-- A slot of one half of the list is not one of the other half. -/
theorem not_mem_split (h : Packed hw c (pre ++ (n, es) :: post)) :
    n ∉ pre.map (·.1) ∧ n ∉ post.map (·.1) := by
  have hnd := h.nodup
  simp only [List.map_append, List.map_cons, List.nodup_append, List.nodup_cons] at hnd
  exact ⟨fun hpre => hnd.2.2 n hpre n (by simp) rfl, hnd.2.1.1⟩

end Packed

/-! ## Deleting a slot -/

/-- The scan moves exactly the ranges behind `e`, and finds the last position of these. -/
theorem shiftRounds (e length : Byte) (f : Nat → KeyMappingIdx) (k : Nat) :
    ∃ M : Byte, (List.range k).foldl (shiftRound e length) (e, f) =
        (M, fun i => if i < k ∧ Behind e (f i) then ⟨(f i).start - length, (f i).end_ - length⟩
          else f i) ∧
      e ≤ M ∧ (∀ i < k, Behind e (f i) → (f i).end_ ≤ M) ∧
      (M = e ∨ ∃ i < k, Behind e (f i) ∧ M = (f i).end_) := by
  induction k with
  | zero => exact ⟨e, by simp, le_refl e, by simp, .inl rfl⟩
  | succ k ih =>
    obtain ⟨M, hfold, hge, hmax, hhit⟩ := ih
    rw [List.range_succ, List.foldl_append, hfold, List.foldl_cons, List.foldl_nil]
    have hk : ¬ (k < k ∧ Behind e (f k)) := fun h => absurd h.1 (Nat.lt_irrefl k)
    unfold shiftRound
    simp only [if_neg hk]
    by_cases hb : Behind e (f k)
    · rw [if_pos hb]
      refine ⟨_, Prod.ext rfl ?_, ?_, ?_, ?_⟩
      · funext i
        by_cases hi : i = k
        · subst hi
          simp [hb]
        · have hlt : i < k + 1 ↔ i < k := by omega
          simp [Function.update_of_ne hi, hlt]
      · split
        · next hgt => exact hge.trans hgt.le
        · exact hge
      · intro i hi hbi
        rcases Nat.lt_succ_iff_lt_or_eq.mp hi with hi | rfl
        · split
          · next hgt => exact (hmax i hi hbi).trans hgt.le
          · exact hmax i hi hbi
        · split
          · exact le_refl _
          · next hgt => exact not_lt.mp hgt
      · split
        · exact .inr ⟨k, Nat.lt_succ_self k, hb, rfl⟩
        · rcases hhit with hM | ⟨i, hi, hbi, hM⟩
          · exact .inl hM
          · exact .inr ⟨i, hi.trans (Nat.lt_succ_self k), hbi, hM⟩
    · rw [if_neg hb]
      refine ⟨M, Prod.ext rfl ?_, hge, ?_, ?_⟩
      · funext i
        by_cases hi : i = k
        · subst hi
          simp [hb]
        · have hlt : i < k + 1 ↔ i < k := by omega
          simp [hlt]
      · intro i hi hbi
        rcases Nat.lt_succ_iff_lt_or_eq.mp hi with hi | rfl
        · exact hmax i hi hbi
        · exact absurd hbi hb
      · rcases hhit with hM | ⟨i, hi, hbi, hM⟩
        · exact .inl hM
        · exact .inr ⟨i, hi.trans (Nat.lt_succ_self k), hbi, hM⟩

/-- An element of `pre ++ post` lies in one of the two halves. -/
theorem split_append {α : Type*} {pre post xs ys : List α} {x : α}
    (h : pre ++ post = xs ++ x :: ys) :
    (∃ mid, pre = xs ++ x :: mid ∧ ys = mid ++ post) ∨
      ∃ mid, xs = pre ++ mid ∧ post = mid ++ x :: ys := by
  rcases List.append_eq_append_iff.mp h with ⟨mid, hxs, hpost⟩ | ⟨mid, hpre, hx⟩
  · exact .inr ⟨mid, hxs, hpost⟩
  · cases mid with
    | nil => exact .inr ⟨[], by simpa using hpre.symm, by simpa using hx.symm⟩
    | cons y mid =>
      obtain ⟨rfl, rfl⟩ := List.cons_eq_cons.mp hx
      exact .inl ⟨mid, hpre, rfl⟩

section Delete

variable {pre post : List Block} {n : Nat} {es : List KeyMapping}

/-- The ranges behind the one of `n` are those of the blocks after it. -/
theorem Packed.behind_iff (h : Packed hw c (pre ++ (n, es) :: post)) {i : Nat}
    (hi : i < hw.numKeyMappingIndices) :
    Behind (c.savedKeyMappingIndices n).end_ (Function.update c.savedKeyMappingIndices n noIdx i) ↔
      i ∈ post.map (·.1) := by
  obtain ⟨hpre, hpost⟩ := h.not_mem_split
  obtain ⟨hstart, hend⟩ := h.used pre n es post rfl
  by_cases hin : i = n
  · subst hin
    rw [Function.update_self]
    exact ⟨fun hb => absurd rfl hb.1, fun hm => absurd hm hpost⟩
  rw [Function.update_of_ne hin]
  constructor
  · rintro ⟨hne, hgt⟩
    rcases h.slot_cases hi with ⟨hno, -⟩ | ⟨xs, ds, ys, heq⟩
    · exact absurd (congrArg KeyMappingIdx.start hno) hne
    -- a block before the one of `n` starts before it
    · rcases split_append heq with ⟨mid, hxs, -⟩ | ⟨mid, hxs, hmid⟩
      · obtain ⟨hs, -⟩ := h.used xs i ds ys heq
        have hle : (entriesOf xs).length ≤ (entriesOf pre).length := by
          rw [hxs]
          simp
        have hpos : 0 < es.length :=
          List.length_pos_iff.mpr (h.saved (n, es) (by simp)).nonempty
        have : (c.savedKeyMappingIndices n).end_.val < (c.savedKeyMappingIndices i).start.val := hgt
        omega
      · cases mid with
        | nil => exact absurd (congrArg Prod.fst (List.cons_eq_cons.mp hmid).1).symm hin
        | cons b mid =>
          obtain ⟨-, rfl⟩ := List.cons_eq_cons.mp hmid
          simp
  · intro hm
    obtain ⟨⟨m, ds⟩, hb, rfl⟩ := List.mem_map.mp hm
    obtain ⟨xs, ys, rfl⟩ := List.append_of_mem hb
    have heq : pre ++ (n, es) :: (xs ++ (m, ds) :: ys) =
        (pre ++ (n, es) :: xs) ++ (m, ds) :: ys := by simp
    obtain ⟨hs, -⟩ := h.used _ m ds ys heq
    simp only [entriesOf_append, entriesOf_cons, List.length_append] at hs
    have hh := h
    rw [heq] at hh
    refine ⟨hh.start_ne, ?_⟩
    show (c.savedKeyMappingIndices n).end_.val < (c.savedKeyMappingIndices m).start.val
    omega

/-- What the scan over the slots computes when the block of `n` goes. -/
theorem Packed.deleteRounds (h : Packed hw c (pre ++ (n, es) :: post)) (length : Byte) :
    ∃ M : Byte, (List.range hw.numKeyMappingIndices).foldl
        (shiftRound (c.savedKeyMappingIndices n).end_ length)
        ((c.savedKeyMappingIndices n).end_, Function.update c.savedKeyMappingIndices n noIdx) =
        (M, fun i => if i ∈ post.map (·.1) then
          ⟨(c.savedKeyMappingIndices i).start - length, (c.savedKeyMappingIndices i).end_ - length⟩
          else Function.update c.savedKeyMappingIndices n noIdx i) ∧
      M.val + 1 = (entriesOf (pre ++ (n, es) :: post)).length := by
  obtain ⟨hpre, hpost⟩ := h.not_mem_split
  have hlt : ∀ i ∈ post.map (·.1), i < hw.numKeyMappingIndices := by
    intro i hi
    obtain ⟨b, hb, rfl⟩ := List.mem_map.mp hi
    exact h.slots_lt b (by simp [hb])
  have hne : ∀ i ∈ post.map (·.1), i ≠ n := by
    rintro i hi rfl
    exact hpost hi
  obtain ⟨M, hfold, hge, hmax, hhit⟩ := shiftRounds (c.savedKeyMappingIndices n).end_ length
    (Function.update c.savedKeyMappingIndices n noIdx) hw.numKeyMappingIndices
  refine ⟨M, hfold.trans (Prod.ext rfl ?_), Nat.le_antisymm ?_ ?_⟩
  · funext i
    by_cases hi : i ∈ post.map (·.1)
    · have hb := (h.behind_iff (hlt i hi)).mpr hi
      simp only [if_pos hi]
      rw [if_pos ⟨hlt i hi, hb⟩, Function.update_of_ne (hne i hi)]
    · simp only [if_neg hi]
      rw [if_neg fun hb => hi ((h.behind_iff hb.1).mp hb.2)]
  · rcases hhit with rfl | ⟨i, hi, hb, rfl⟩
    · exact h.end_le (List.mem_append_right pre List.mem_cons_self)
    · have hm := (h.behind_iff hi).mp hb
      rw [Function.update_of_ne (hne i hm)]
      obtain ⟨⟨m, ds⟩, hmem, rfl⟩ := List.mem_map.mp hm
      exact h.end_le (List.mem_append_right pre (List.mem_cons_of_mem (n, es) hmem))
  · rcases List.eq_nil_or_concat' post with rfl | ⟨post, ⟨m, ds⟩, rfl⟩
    · rw [← h.end_last]
      exact Nat.succ_le_succ hge
    · have hm : m ∈ (post ++ [(m, ds)]).map (·.1) := by simp
      have heq : pre ++ (n, es) :: (post ++ [(m, ds)]) = (pre ++ (n, es) :: post) ++ [(m, ds)] := by
        simp
      have hlast : (c.savedKeyMappingIndices m).end_ ≤ M := by
        simpa only [Function.update_of_ne (hne m hm)] using
          hmax m (hlt m hm) ((h.behind_iff (hlt m hm)).mpr hm)
      rw [heq] at h ⊢
      rw [← h.end_last]
      exact Nat.succ_le_succ hlast

/-- The configuration after the block of `n` is gone: the ranges behind it, those of `post`, and
    their keys are down by its length. -/
def closed (c : Config) (pre : List Block) (n : Nat) (es : List KeyMapping) (post : List Block) :
    Config :=
  { c with
    savedKeyMappingIndices := fun i =>
      if i ∈ post.map (·.1) then
        ⟨(c.savedKeyMappingIndices i).start - Fin.ofNat 256 es.length,
          (c.savedKeyMappingIndices i).end_ - Fin.ofNat 256 es.length⟩
      else Function.update c.savedKeyMappingIndices n noIdx i
    savedKeyMappings := memmove c.savedKeyMappings (0 + (entriesOf pre).length)
      (0 + (entriesOf pre ++ es).length) (entriesOf post).length }

theorem configDeleteLayout_used (h : Packed hw c (pre ++ (n, es) :: post)) :
    configDeleteLayout hw c n = (.ok (), closed c pre n es post) := by
  obtain ⟨hstart, hend⟩ := h.used pre n es post rfl
  have hn : ¬ n ≥ hw.numKeyMappingIndices := not_le.mpr (h.slots_lt (n, es) (by simp))
  have hpos : 0 < es.length := List.length_pos_iff.mpr (h.saved (n, es) (by simp)).nonempty
  have htotal := h.length_le
  simp only [entriesOf_append, entriesOf_cons, List.length_append] at htotal
  -- the length of the block, as a byte
  have hlength : ((c.savedKeyMappingIndices n).end_ - (c.savedKeyMappingIndices n).start + 1 : Byte)
      = Fin.ofNat 256 es.length := by
    refine Fin.ext ?_
    rw [Fin.val_add, Fin.val_sub]
    show (_ + 1) % 256 = es.length % 256
    omega
  have hval : (Fin.ofNat 256 es.length).val = es.length := Nat.mod_eq_of_lt (by omega)
  obtain ⟨M, hfold, hM⟩ := h.deleteRounds (Fin.ofNat 256 es.length)
  simp only [entriesOf_append, entriesOf_cons, List.length_append] at hM
  have h1 : 0 + (entriesOf pre ++ es).length - es.length = 0 + (entriesOf pre).length := by
    rw [List.length_append]
    omega
  have h2 : (c.savedKeyMappingIndices n).end_.val + 1 = 0 + (entriesOf pre ++ es).length := by
    rw [List.length_append]
    omega
  have h3 : M.val - (c.savedKeyMappingIndices n).end_.val = (entriesOf post).length := by omega
  unfold configDeleteLayout
  rw [if_neg hn]
  simp only [if_neg h.start_ne, hlength, hfold, hval, h2, h1, h3]
  refine Prod.ext rfl ?_
  show Config.mk _ _ _ = Config.mk _ _ _
  congr 1
  split
  · rfl
  -- nothing lies behind the block
  · next hlt =>
    have hle : M.val ≤ (c.savedKeyMappingIndices n).end_.val := not_lt.mp hlt
    rw [show (entriesOf post).length = 0 by omega, memmove_zero]

/-- **Deleting a used slot** takes its block out of the list. -/
theorem Packed.closed (h : Packed hw c (pre ++ (n, es) :: post)) :
    Packed hw (closed c pre n es post) (pre ++ post) := by
  obtain ⟨hpre, hpost⟩ := h.not_mem_split
  have hsub : (pre ++ post).Sublist (pre ++ (n, es) :: post) :=
    (List.Sublist.refl pre).append (List.sublist_cons_self _ post)
  have htotal := h.length_le
  simp only [entriesOf_append, entriesOf_cons, List.length_append] at htotal
  refine
    { nodup := h.nodup.sublist (hsub.map _)
      slots_lt := fun b hb => h.slots_lt b (hsub.subset hb)
      saved := fun b hb => h.saved b (hsub.subset hb)
      fits := (hsub.flatMap (·.2)).length_le.trans h.fits
      holds := ?_
      used := ?_
      unused := ?_ }
  · have hholds := h.holds
    rw [entriesOf_append, entriesOf_cons, ← List.append_assoc] at hholds
    rw [entriesOf_append]
    exact hholds.close_hole
  · intro xs m ds ys heq
    have hval : (Fin.ofNat 256 es.length).val = es.length := Nat.mod_eq_of_lt (by omega)
    have hnd := h.nodup
    rcases split_append heq with ⟨mid, rfl, -⟩ | ⟨mid, rfl, rfl⟩
    · have hm : m ∉ post.map (·.1) := fun hm => by
        simp only [List.map_append, List.map_cons, List.nodup_append] at hnd
        exact hnd.2.2 m (by simp) m (by simp [hm]) rfl
      have hmn : m ≠ n := fun hmn => hpre (by simp [hmn])
      show (ite _ _ _ : KeyMappingIdx).start.val = _ ∧ (ite _ _ _ : KeyMappingIdx).end_.val + 1 = _
      rw [if_neg hm, Function.update_of_ne hmn]
      exact h.used xs m ds (mid ++ (n, es) :: post) (by simp)
    · have hm : m ∈ (mid ++ (m, ds) :: ys).map (·.1) := by simp
      have hpos : 0 < ds.length := List.length_pos_iff.mpr (h.saved (m, ds) (by simp)).nonempty
      obtain ⟨hs, he⟩ := h.used (pre ++ (n, es) :: mid) m ds ys (by simp)
      show (ite _ _ _ : KeyMappingIdx).start.val = _ ∧ (ite _ _ _ : KeyMappingIdx).end_.val + 1 = _
      rw [if_pos hm]
      simp only [entriesOf_append, entriesOf_cons, List.length_append] at hs he htotal ⊢
      rw [Fin.val_sub, Fin.val_sub, hval]
      omega
  · intro i hi hmem
    rw [List.map_append, List.mem_append, not_or] at hmem
    show ite _ _ _ = _
    rw [if_neg hmem.2]
    by_cases hin : i = n
    · rw [hin, Function.update_self]
    · rw [Function.update_of_ne hin]
      refine h.unused i hi fun hm => ?_
      rw [List.map_append, List.map_cons, List.mem_append, List.mem_cons] at hm
      rcases hm with hm | hm | hm
      · exact hmem.1 hm
      · exact hin hm
      · exact hmem.2 hm

end Delete

/-- The blocks without the one of slot `n`. -/
def remove (n : Nat) (blocks : List Block) : List Block := blocks.filter fun b => b.1 ≠ n

section Remove

variable {blocks pre post : List Block} {n m : Nat} {es : List KeyMapping}

theorem not_mem_remove (n : Nat) (blocks : List Block) : n ∉ (remove n blocks).map (·.1) := by
  simp [remove]

theorem remove_of_not_mem (h : n ∉ blocks.map (·.1)) : remove n blocks = blocks :=
  List.filter_eq_self.mpr fun _ hb => decide_eq_true fun hbn => h (hbn ▸ List.mem_map_of_mem hb)

theorem Packed.remove_split (h : Packed hw c (pre ++ (n, es) :: post)) :
    remove n (pre ++ (n, es) :: post) = pre ++ post := by
  obtain ⟨hpre, hpost⟩ := h.not_mem_split
  rw [remove, List.filter_append, List.filter_cons_of_neg (by simp)]
  exact congrArg₂ _ (remove_of_not_mem hpre) (remove_of_not_mem hpost)

theorem lookup_remove (h : m ≠ n) (blocks : List Block) :
    (remove n blocks).lookup m = blocks.lookup m := by
  induction blocks with
  | nil => rfl
  | cons b blocks ih =>
    obtain ⟨k, es⟩ := b
    by_cases hk : k = n
    · have hmk : (m == k) = false := beq_false_of_ne (hk ▸ h)
      rw [remove, List.filter_cons_of_neg (by simp [hk]), List.lookup_cons, hmk]
      exact ih
    · rw [remove, List.filter_cons_of_pos (by simp [hk]), List.lookup_cons, List.lookup_cons]
      split
      · rfl
      · exact ih

theorem lookup_eq_none (h : n ∉ blocks.map (·.1)) : blocks.lookup n = none := by
  rw [List.lookup_eq_none_iff]
  intro b hb
  exact bne_iff_ne.mpr fun hn => h (hn ▸ List.mem_map_of_mem hb)

theorem lookup_remove_self (n : Nat) (blocks : List Block) : (remove n blocks).lookup n = none :=
  lookup_eq_none (not_mem_remove n blocks)

theorem Packed.lookup_split (h : Packed hw c (pre ++ (n, es) :: post)) :
    (pre ++ (n, es) :: post).lookup n = some es := by
  rw [List.lookup_append, lookup_eq_none h.not_mem_split.1, Option.none_or,
    List.lookup_cons_self]

/-- A slot without a block is refused, and the configuration stays as it is. -/
theorem Packed.delete_unused (h : Packed hw c blocks) (hn : n ∉ blocks.map (·.1)) :
    configDeleteLayout hw c n = (.error msgNoLayout, c) := by
  unfold configDeleteLayout
  split
  · rfl
  · next hlt =>
    rw [h.unused n (not_le.mp hlt) hn]
    exact if_pos rfl

/-- **Deleting**: the block of the slot goes, and the live layout stays. -/
theorem Packed.deleted (h : Packed hw c blocks) (n : Nat) :
    Packed hw (configDeleteLayout hw c n).2 (remove n blocks) ∧
      (configDeleteLayout hw c n).2.logicalToHidMap = c.logicalToHidMap := by
  by_cases hmem : n ∈ blocks.map (·.1)
  · obtain ⟨⟨m, es⟩, hb, rfl⟩ := List.mem_map.mp hmem
    obtain ⟨pre, post, rfl⟩ := List.append_of_mem hb
    rw [configDeleteLayout_used h, h.remove_split]
    exact ⟨h.closed, rfl⟩
  · rw [h.delete_unused hmem, remove_of_not_mem hmem]
    exact ⟨h, rfl⟩

end Remove

/-! ## Saving a slot -/

/-- The search finds the last position in use. -/
theorem lastEndRounds (indices : Nat → KeyMappingIdx) (k : Nat) :
    ∃ M : Int, (List.range k).foldl (lastEndRound indices) (-1) = M ∧ -1 ≤ M ∧
      (∀ i < k, (indices i).start ≠ noKey → ((indices i).end_.val : Int) ≤ M) ∧
      (M = -1 ∨ ∃ i < k, (indices i).start ≠ noKey ∧ M = (indices i).end_.val) := by
  induction k with
  | zero => exact ⟨-1, rfl, le_refl _, by simp, .inl rfl⟩
  | succ k ih =>
    obtain ⟨M, hfold, hge, hmax, hhit⟩ := ih
    rw [List.range_succ, List.foldl_append, hfold, List.foldl_cons, List.foldl_nil]
    have hhit' : M = -1 ∨ ∃ i < k + 1, (indices i).start ≠ noKey ∧ M = (indices i).end_.val :=
      hhit.imp_right fun ⟨i, hi, h⟩ => ⟨i, hi.trans (Nat.lt_succ_self k), h⟩
    unfold lastEndRound
    split
    · next hno =>
      refine ⟨M, rfl, hge, fun i hi hne => ?_, hhit'⟩
      rcases Nat.lt_succ_iff_lt_or_eq.mp hi with hi | rfl
      · exact hmax i hi hne
      · exact absurd hno hne
    · next hne =>
      split
      · next hgt =>
        refine ⟨_, rfl, by omega, fun i hi hi' => ?_, .inr ⟨k, Nat.lt_succ_self k, hne, rfl⟩⟩
        rcases Nat.lt_succ_iff_lt_or_eq.mp hi with hi | rfl
        · exact (hmax i hi hi').trans hgt.le
        · exact le_refl _
      · next hgt =>
        refine ⟨M, rfl, hge, fun i hi hi' => ?_, hhit'⟩
        rcases Nat.lt_succ_iff_lt_or_eq.mp hi with hi | rfl
        · exact hmax i hi hi'
        · exact not_lt.mp hgt

/-- The position behind the packed part, which is where a save starts to write. -/
theorem Packed.lastEnd {blocks : List Block} (h : Packed hw c blocks) :
    (List.range hw.numKeyMappingIndices).foldl (lastEndRound c.savedKeyMappingIndices) (-1) + 1 =
      ((entriesOf blocks).length : Int) := by
  obtain ⟨M, hfold, hge, hmax, hhit⟩ :=
    lastEndRounds c.savedKeyMappingIndices hw.numKeyMappingIndices
  rw [hfold]
  refine le_antisymm ?_ ?_
  · rcases hhit with rfl | ⟨i, hi, hne, rfl⟩
    · simp
    · rcases h.slot_cases hi with ⟨hno, -⟩ | ⟨pre, es, post, rfl⟩
      · exact absurd (congrArg KeyMappingIdx.start hno) hne
      · have hmem : (i, es) ∈ pre ++ (i, es) :: post := by simp
        exact_mod_cast h.end_le hmem
  · rcases List.eq_nil_or_concat' blocks with rfl | ⟨pre, ⟨m, ds⟩, rfl⟩
    · show (0 : Int) ≤ M + 1
      omega
    · have hm := hmax m (h.slots_lt (m, ds) (by simp)) h.start_ne
      have := h.end_last
      omega

end KeyboardFirmware
