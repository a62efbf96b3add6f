/-
  Histories of the macro index: the array as a map from triggers to values.

  `InUse` is the set of entries in use; creating adds one element to it, removing takes one away.
  Together with `macroIdxLookup_eq_some_iff` this gives the map view `entryOf` and its frame
  conditions.  `present` replays a history on plain sets of triggers, and `Represents` relates the
  array to that set; it holds after a reset (`reset_represents`), every operation keeps it, and so
  it holds after every history (`index_history`).
-/
import KeyboardFirmware.Macro.IndexInv
import Mathlib.Data.Finset.Card

namespace KeyboardFirmware

open Lib

variable {hw : Hardware} {index : MacroIndex} {n : Nat}

/-! ## The set of entries in use -/

/-- `e` stands at one of the first `n` positions. -/
def InUse (index : MacroIndex) (n : Nat) (e : MacroIdxEntry) : Prop := ∃ i, i < n ∧ index i = e

/-- The entry that looking a trigger up leads to. -/
def entryOf (hw : Hardware) (index : MacroIndex) (t : Trigger) : Option MacroIdxEntry :=
  (macroIdxLookup hw index t.key).map index

theorem entryOf_eq_some_iff (h : IndexInv hw index n) (t : Trigger) (e : MacroIdxEntry) :
    entryOf hw index t = some e ↔ InUse index n e ∧ e.key = t.key := by
  rw [entryOf, Option.map_eq_some_iff]
  constructor
  · rintro ⟨i, hi, rfl⟩
    obtain ⟨hin, hk⟩ := (macroIdxLookup_eq_some_iff h t.key_head).mp hi
    exact ⟨⟨i, hin, rfl⟩, hk⟩
  · rintro ⟨⟨i, hin, rfl⟩, hk⟩
    exact ⟨i, (macroIdxLookup_eq_some_iff h t.key_head).mpr ⟨hin, hk⟩, rfl⟩

/-- Two indexes with the same entries for a trigger's key agree on the trigger. -/
theorem entryOf_congr {index' : MacroIndex} {n' : Nat} (h : IndexInv hw index n)
    (h' : IndexInv hw index' n') {t : Trigger}
    (hsame : ∀ e, e.key = t.key → (InUse index' n' e ↔ InUse index n e)) :
    entryOf hw index' t = entryOf hw index t := by
  refine Option.ext fun e => ?_
  rw [entryOf_eq_some_iff h', entryOf_eq_some_iff h]
  exact ⟨fun ⟨hu, hk⟩ => ⟨(hsame e hk).mp hu, hk⟩, fun ⟨hu, hk⟩ => ⟨(hsame e hk).mpr hu, hk⟩⟩

/-- What `macro_idx_create` returns, on an index with room: the new entry is at the returned
    position, and it is the only one that came in. -/
theorem create_inUse (h : IndexInv hw index n) {t : Trigger}
    (hnew : ∀ i, i < n → (index i).key ≠ t.key) {r : Nat} {index' : MacroIndex}
    (hc : macroIdxCreate hw index t.key = some (r, index')) :
    r < n + 1 ∧ (index' r).key = t.key ∧
      ∀ e, InUse index' (n + 1) e ↔ InUse index n e ∨ e = index' r := by
  have hfree : n < hw.macroIndexCount := by
    refine Nat.lt_of_le_of_ne h.le_count fun hf => ?_
    rw [(macroIdxCreate_eq_none_iff h t.key).mpr hf] at hc
    exact absurd hc (by simp)
  obtain ⟨r', hr, -, -, heq⟩ := macroIdxCreate_eq h hfree t.key_head hnew
  rw [heq, Option.some.injEq, Prod.mk.injEq] at hc
  obtain ⟨rfl, rfl⟩ := hc
  refine ⟨by omega, by simp, fun e => ?_⟩
  rw [Function.update_self]
  constructor
  · rintro ⟨i, hi, rfl⟩
    by_cases hir : i = r'
    · subst hir; right; simp
    · left
      rw [Function.update_of_ne hir, shiftUp]
      split
      · exact ⟨i - 1, by omega, rfl⟩
      · exact ⟨i, by omega, rfl⟩
  · rintro (⟨i, hi, rfl⟩ | rfl)
    · by_cases hir : i < r'
      · exact ⟨i, by omega, by rw [Function.update_of_ne (by omega), shiftUp, if_neg (by omega)]⟩
      · refine ⟨i + 1, by omega, ?_⟩
        rw [Function.update_of_ne (by omega), shiftUp, if_pos (by omega)]
        rfl
    · exact ⟨r', by omega, by simp⟩

/-- Removing takes exactly the entry at the given position away. -/
theorem remove_inUse (h : IndexInv hw index n) {mi : Nat} (hi : mi < n) (e : MacroIdxEntry) :
    InUse (macroIdxRemove hw index mi) (n - 1) e ↔ InUse index n e ∧ e.key ≠ (index mi).key := by
  rw [macroIdxRemove_eq h hi]
  constructor
  · rintro ⟨i, hin, rfl⟩
    rw [shiftDown_of_lt h (by omega)]
    split
    · exact ⟨⟨i + 1, by omega, rfl⟩, (h.ascending mi (i + 1) (by omega) (by omega)).ne'⟩
    · exact ⟨⟨i, by omega, rfl⟩, (h.ascending i mi (by omega) hi).ne⟩
  · rintro ⟨⟨i, hin, rfl⟩, hne⟩
    rcases Nat.lt_trichotomy i mi with hlt | rfl | hlt
    · exact ⟨i, by omega, by rw [shiftDown_of_lt h (by omega), if_neg (by omega)]⟩
    · exact absurd rfl hne
    · refine ⟨i - 1, by omega, ?_⟩
      rw [shiftDown_of_lt h (by omega), if_pos (by omega)]
      congr 1; omega

/-- **Frame of create**: every other trigger keeps its entry, keys and value. -/
theorem entryOf_create (h : IndexInv hw index n) {t t' : Trigger}
    (hnew : ∀ i, i < n → (index i).key ≠ t.key) {r : Nat} {index' : MacroIndex}
    (hc : macroIdxCreate hw index t.key = some (r, index')) (hne : t'.set ≠ t.set) :
    entryOf hw index' t' = entryOf hw index t' := by
  obtain ⟨-, hkey, huse⟩ := create_inUse h hnew hc
  refine entryOf_congr h (h.create hnew hc) fun e hk => ?_
  rw [huse]
  refine or_iff_left fun he => hne (Trigger.key_inj.mp ?_)
  rw [← hk, he, hkey]

/-- **Frame of remove.** -/
theorem entryOf_remove (h : IndexInv hw index n) {t t' : Trigger} {mi : Nat} (hi : mi < n)
    (hk : (index mi).key = t.key) (hne : t'.set ≠ t.set) :
    entryOf hw (macroIdxRemove hw index mi) t' = entryOf hw index t' := by
  refine entryOf_congr h (h.remove hi) fun e he => ?_
  rw [remove_inUse h hi]
  refine and_iff_left fun hek => hne (Trigger.key_inj.mp ?_)
  rw [← he, hek, hk]

/-- **Frame of set data.** -/
theorem entryOf_setData (h : IndexInv hw index n) {t t' : Trigger} {mi : Nat} (hi : mi < n)
    (hk : (index mi).key = t.key) (d : MacroIdxEntryData) (hne : t'.set ≠ t.set) :
    entryOf hw (macroIdxSetData index mi d) t' = entryOf hw index t' := by
  refine entryOf_congr h (h.setData mi d) fun e he => ?_
  have hother : ∀ i, (index i).key = t'.key → i ≠ mi := fun i hit him => by
    subst him
    exact hne (Trigger.key_inj.mp (hit.symm.trans hk))
  constructor
  · rintro ⟨i, hin, rfl⟩
    rw [macroIdxSetData_key] at he
    exact ⟨i, hin, by rw [macroIdxSetData_of_ne _ _ (hother i he)]⟩
  · rintro ⟨i, hin, rfl⟩
    exact ⟨i, hin, by rw [macroIdxSetData_of_ne _ _ (hother i he)]⟩

/-- Looking up the trigger whose value was set finds the new value. -/
theorem entryOf_setData_self (h : IndexInv hw index n) {t : Trigger} {mi : Nat} (hi : mi < n)
    (hk : (index mi).key = t.key) (d : MacroIdxEntryData) :
    entryOf hw (macroIdxSetData index mi d) t = some ⟨t.key, packData d⟩ := by
  rw [entryOf_eq_some_iff (h.setData mi d)]
  exact ⟨⟨mi, hi, by simp [macroIdxSetData, hk]⟩, rfl⟩

/-! ## The reset index -/

/-- The trigger of a default macro: a single key. -/
def singleKey (lkey : LogicalKeycode) (h : lkey ≠ noKey) : Trigger where
  set := {lkey}
  nonempty := ⟨lkey, Finset.mem_singleton_self lkey⟩
  card_le := by rw [Finset.card_singleton]; decide
  noKey_notMem := by rw [Finset.mem_singleton]; exact fun he => h he.symm

/-- The entry a default macro gets: its single key, and the offset its record will have. -/
def defEntry (idx : Nat) (d : MacroDefInfo) : MacroIdxEntry :=
  ⟨⟨d.lkey :: List.replicate (macroMaxKeys - 1) noKey, by simp [macroMaxKeys]⟩,
    Fin.ofNat 65536 (idx * (macroDataHeaderLen + defHkeysLen))⟩

theorem defEntry_key (idx : Nat) (d : MacroDefInfo) (h : d.lkey ≠ noKey) :
    (defEntry idx d).key = (singleKey d.lkey h).key := by
  apply MacroIdxKey.keys_injective
  show _ = ({d.lkey} : Finset LogicalKeycode).sort (· ≤ ·) ++ _
  simp [defEntry, singleKey]

theorem defEntry_key_lt {idx idx' : Nat} {d d' : MacroDefInfo} (h : d.lkey < d'.lkey) :
    (defEntry idx d).key < (defEntry idx' d').key :=
  List.cons_lt_cons_iff.mpr (Or.inl h)

/-- The scan keeps a smallest key above the bound.  Induction on the rest of the table. -/
theorem nextDefRound_foldl (lowBound : LogicalKeycode) :
    ∀ (l : List (MacroDefInfo × Nat)) (st : Nat × LogicalKeycode),
      (l.foldl (nextDefRound lowBound) st).2 ≤ st.2 ∧
      (∀ c ∈ l, lowBound < c.1.lkey → (l.foldl (nextDefRound lowBound) st).2 ≤ c.1.lkey) ∧
      (l.foldl (nextDefRound lowBound) st = st ∨
        ∃ c ∈ l, lowBound < c.1.lkey ∧ l.foldl (nextDefRound lowBound) st = (c.2, c.1.lkey)) := by
  intro l
  induction l with
  | nil => intro st; exact ⟨le_rfl, fun c hc => absurd hc List.not_mem_nil, Or.inl rfl⟩
  | cons c l ih =>
    intro st
    rw [List.foldl_cons]
    obtain ⟨hle, hmin, hval⟩ := ih (nextDefRound lowBound st c)
    have hstep : (nextDefRound lowBound st c).2 ≤ st.2 ∧
        (lowBound < c.1.lkey → (nextDefRound lowBound st c).2 ≤ c.1.lkey) ∧
        (nextDefRound lowBound st c = st ∨
          lowBound < c.1.lkey ∧ nextDefRound lowBound st c = (c.2, c.1.lkey)) := by
      rw [nextDefRound]
      split
      · next h => exact ⟨h.2.le, fun _ => le_rfl, Or.inr ⟨h.1, rfl⟩⟩
      · next h => exact ⟨le_rfl, fun hb => not_lt.mp fun hlt => h ⟨hb, hlt⟩, Or.inl rfl⟩
    refine ⟨hle.trans hstep.1, ?_, ?_⟩
    · intro c' hc' hb
      rcases List.mem_cons.mp hc' with rfl | hc'
      · exact hle.trans (hstep.2.1 hb)
      · exact hmin c' hc' hb
    · rcases hval with heq | ⟨c', hc', hb, heq⟩
      · rw [heq]
        rcases hstep.2.2 with hst | ⟨hb, hst⟩
        · exact Or.inl hst
        · exact Or.inr ⟨c, List.mem_cons_self .., hb, hst⟩
      · exact Or.inr ⟨c', List.mem_cons_of_mem _ hc', hb, heq⟩

/-- **The scan of `get_next_macro_def_info_index`**: either no key is above the bound, or the
    result is the position of the smallest one. -/
theorem getNextMacroDefInfoIndex_spec (hw : Hardware) (lb : LogicalKeycode) :
    (getNextMacroDefInfoIndex hw.macroDefInfos lb = 0xff ∧
      ∀ d ∈ hw.macroDefInfos, d.lkey ≤ lb) ∨
    (∃ idx d, getNextMacroDefInfoIndex hw.macroDefInfos lb = idx ∧ idx ≠ 0xff ∧
      hw.macroDefInfos[idx]? = some d ∧ lb < d.lkey ∧
      ∀ d' ∈ hw.macroDefInfos, lb < d'.lkey → d.lkey ≤ d'.lkey) := by
  rw [getNextMacroDefInfoIndex]
  by_cases hlb : lb = noKey
  · rw [if_pos hlb]
    exact Or.inl ⟨rfl, fun d _ => hlb ▸ Fin.le_last d.lkey⟩
  rw [if_neg hlb]
  obtain ⟨-, hmin, hval⟩ := nextDefRound_foldl lb hw.macroDefInfos.zipIdx (0xff, noKey)
  have hmin' : ∀ d ∈ hw.macroDefInfos, lb < d.lkey →
      (hw.macroDefInfos.zipIdx.foldl (nextDefRound lb) (0xff, noKey)).2 ≤ d.lkey := by
    intro d hd hb
    obtain ⟨i, hi, rfl⟩ := List.getElem_of_mem hd
    exact hmin (hw.macroDefInfos[i], i)
      (List.mem_zipIdx_iff_getElem?.mpr (List.getElem?_eq_getElem hi)) hb
  rcases hval with heq | ⟨⟨d, i⟩, hc, hb, heq⟩
  · refine Or.inl ⟨by rw [heq], fun d hd => not_lt.mp fun hb => ?_⟩
    have hle := hmin' d hd hb
    rw [heq] at hle
    exact (hw.lkeys_valid d hd).2 (le_antisymm (Fin.le_last d.lkey) hle)
  · have hget : hw.macroDefInfos[i]? = some d := List.mem_zipIdx_iff_getElem?.mp hc
    have hi : i < hw.macroDefInfos.length := (List.getElem?_eq_some_iff.mp hget).1
    refine Or.inr ⟨i, d, by rw [heq], ?_, hget, hb, fun d' hd' hb' => ?_⟩
    · have := hw.defs_fit_index; have := hw.count_le; omega
    · have := hmin' d' hd' hb'
      rwa [heq] at this

/-- What the reset loop has done after its first `k` rounds: `m` entries carry defaults in
    ascending order, namely all those with keys up to the bound `lb`; the others are empty, and
    there is an empty one only once the table is used up. -/
structure ResetInv (hw : Hardware) (index : MacroIndex) (lb : LogicalKeycode) (k m : Nat) :
    Prop where
  le : m ≤ k
  used : ∀ i, i < m → ∃ idx d, hw.macroDefInfos[idx]? = some d ∧ d.lkey ≤ lb ∧
    index i = defEntry idx d
  ascending : ∀ i j, i < j → j < m → (index i).key < (index j).key
  covered : ∀ idx d, hw.macroDefInfos[idx]? = some d → d.lkey ≤ lb →
    ∃ i, i < m ∧ index i = defEntry idx d
  empty : ∀ i, m ≤ i → i < k → index i = emptyEntry
  ended : lb = noKey ∨ m = k

theorem resetRound_inv {lb : LogicalKeycode} {k m : Nat} (h : ResetInv hw index lb k m) :
    ∃ m', ResetInv hw (resetRound hw (index, lb) k).1 (resetRound hw (index, lb) k).2 (k + 1) m' := by
  have hkeep : ∀ (e : MacroIdxEntry) (i : Nat), i < k → Function.update index k e i = index i :=
    fun e i hi => Function.update_of_ne (by omega) _ _
  have hle := h.le
  rcases getNextMacroDefInfoIndex_spec hw lb with ⟨hnone, hall⟩ | ⟨idx, d, hidx, hne, hget, hb, hmin⟩
  · -- the table is used up: position `k` becomes empty
    have hround : resetRound hw (index, lb) k = (Function.update index k emptyEntry, noKey) := by
      rw [resetRound, if_pos hnone]
    rw [hround]
    suffices hinv : ResetInv hw (Function.update index k emptyEntry) noKey (k + 1) m from ⟨m, hinv⟩
    refine ⟨by omega, ?_, ?_, ?_, ?_, Or.inl rfl⟩
    · intro i hi
      obtain ⟨idx, d, hget, hd, he⟩ := h.used i hi
      exact ⟨idx, d, hget, Fin.le_last d.lkey, by rw [hkeep _ i (by omega), he]⟩
    · intro i j hij hj
      rw [hkeep _ i (by omega), hkeep _ j (by omega)]; exact h.ascending i j hij hj
    · intro idx d hget _
      obtain ⟨i, hi, he⟩ := h.covered idx d hget (hall d (List.mem_of_getElem? hget))
      exact ⟨i, hi, by rw [hkeep _ i (by omega), he]⟩
    · intro i hmi hik
      by_cases hi : i = k
      · subst hi; exact Function.update_self ..
      · rw [hkeep _ i (by omega)]; exact h.empty i hmi (by omega)
  · -- position `k` gets the default with the next larger key
    have hlbne : lb ≠ noKey := fun he => absurd hb (not_lt.mpr (he ▸ Fin.le_last d.lkey))
    obtain rfl : m = k := h.ended.resolve_left hlbne
    have hround : resetRound hw (index, lb) m = (Function.update index m (defEntry idx d), d.lkey) := by
      rw [resetRound, hidx, if_neg hne, hget]
      rfl
    rw [hround]
    suffices hinv : ResetInv hw (Function.update index m (defEntry idx d)) d.lkey (m + 1) (m + 1) from
      ⟨m + 1, hinv⟩
    have hold : ∀ i, i < m → ∃ idx' d', hw.macroDefInfos[idx']? = some d' ∧ d'.lkey ≤ lb ∧
        Function.update index m (defEntry idx d) i = defEntry idx' d' := fun i hi => by
      obtain ⟨idx', d', hget', hd', he⟩ := h.used i hi
      exact ⟨idx', d', hget', hd', by rw [hkeep _ i hi, he]⟩
    refine ⟨le_rfl, ?_, ?_, ?_, fun i h1 h2 => by omega, Or.inr rfl⟩
    · intro i hi
      by_cases him : i = m
      · subst him; exact ⟨idx, d, hget, le_rfl, Function.update_self ..⟩
      · obtain ⟨idx', d', hget', hd', he⟩ := hold i (by omega)
        exact ⟨idx', d', hget', hd'.trans hb.le, he⟩
    · intro i j hij hj
      by_cases hjm : j = m
      · subst hjm
        obtain ⟨idx', d', -, hd', he⟩ := hold i (by omega)
        rw [he, Function.update_self]
        exact defEntry_key_lt (lt_of_le_of_lt hd' hb)
      · rw [hkeep _ i (by omega), hkeep _ j (by omega)]; exact h.ascending i j hij (by omega)
    · intro idx' d' hget' hd'
      rcases le_or_gt d'.lkey lb with hlow | hhigh
      · obtain ⟨i, hi, he⟩ := h.covered idx' d' hget' hlow
        exact ⟨i, by omega, by rw [hkeep _ i hi, he]⟩
      · -- a key in between would be smaller than the smallest one above the bound
        have heq : d.lkey = d'.lkey :=
          le_antisymm (hmin d' (List.mem_of_getElem? hget') hhigh) hd'
        obtain ⟨h1, -⟩ := List.getElem?_eq_some_iff.mp hget
        have hlkeys : ∀ (j : Nat) (c : MacroDefInfo), hw.macroDefInfos[j]? = some c →
            (hw.macroDefInfos.map (·.lkey))[j]? = some c.lkey := fun j c hj => by
          rw [List.getElem?_map, hj]; rfl
        have hidxeq : idx = idx' := by
          refine (List.getElem?_inj (by simpa using h1) hw.lkeys_nodup).mp ?_
          rw [hlkeys idx d hget, hlkeys idx' d' hget', heq]
        subst hidxeq
        obtain rfl : d = d' := Option.some.inj (hget.symm.trans hget')
        exact ⟨m, by omega, Function.update_self ..⟩

/-- Before the first round nothing has been written, and no default key is as low as the bound. -/
theorem ResetInv.start (hw : Hardware) (index : MacroIndex) : ResetInv hw index 0 0 0 where
  le := le_rfl
  used _ hi := absurd hi (Nat.not_lt_zero _)
  ascending _ _ _ hj := absurd hj (Nat.not_lt_zero _)
  covered _ d hget hd :=
    absurd (hw.lkeys_valid d (List.mem_of_getElem? hget)).1 (not_lt.mpr hd)
  empty _ _ hi := absurd hi (Nat.not_lt_zero _)
  ended := Or.inr rfl

theorem resetLoop_inv (hw : Hardware) (index : MacroIndex) (k : Nat) :
    ∃ m, ResetInv hw ((List.range k).foldl (resetRound hw) (index, 0)).1
      ((List.range k).foldl (resetRound hw) (index, 0)).2 k m := by
  induction k with
  | zero => exact ⟨0, ResetInv.start hw index⟩
  | succ k ih =>
    obtain ⟨m, hm⟩ := ih
    rw [List.range_succ, List.foldl_append, List.foldl_cons, List.foldl_nil]
    exact resetRound_inv hm

theorem ResetInv.indexInv {lb : LogicalKeycode} {m : Nat}
    (h : ResetInv hw index lb hw.macroIndexCount m) : IndexInv hw index m where
  le_count := h.le
  used i hi := by
    obtain ⟨idx, d, hget, -, he⟩ := h.used i hi
    have hne := (hw.lkeys_valid d (List.mem_of_getElem? hget)).2
    exact ⟨singleKey d.lkey hne, by rw [he, defEntry_key idx d hne]⟩
  ascending := h.ascending
  empty i hi hc := by rw [h.empty i hi hc]; rfl

/-- The first code of a default entry identifies it. -/
theorem ResetInv.head_injOn {lb : LogicalKeycode} {m : Nat}
    (h : ResetInv hw index lb hw.macroIndexCount m) {i j : Nat} (hi : i < m) (hj : j < m)
    (heq : (index i).key.head = (index j).key.head) : i = j := by
  obtain ⟨idx, d, -, -, he⟩ := h.used i hi
  obtain ⟨idx', d', -, -, he'⟩ := h.used j hj
  refine h.indexInv.key_injOn hi hj ?_
  rw [he, he'] at heq ⊢
  have hlkey : d.lkey = d'.lkey := heq
  apply MacroIdxKey.keys_injective
  show d.lkey :: _ = d'.lkey :: _
  rw [hlkey]

/-- A reset fills in the whole table: every default is among the entries in use.  The table fits
    the index, so the loop cannot stop short of it. -/
theorem ResetInv.covers {lb : LogicalKeycode} {m : Nat}
    (h : ResetInv hw index lb hw.macroIndexCount m) {d : MacroDefInfo}
    (hd : d ∈ hw.macroDefInfos) : d.lkey ≤ lb := by
  rcases h.ended with rfl | hm
  · exact Fin.le_last d.lkey
  · -- `m` defaults up to the bound are as many as the table can hold
    by_contra hgt
    have hd' : d.lkey ∈ hw.macroDefInfos.map (·.lkey) := List.mem_map_of_mem hd
    have hsub : (Finset.range m).image (fun i => (index i).key.head) ⊆
        ((hw.macroDefInfos.map (·.lkey)).erase d.lkey).toFinset := by
      intro a ha
      obtain ⟨i, hi, rfl⟩ := Finset.mem_image.mp ha
      obtain ⟨idx, d', hget, hle, he⟩ := h.used i (Finset.mem_range.mp hi)
      have hne : d'.lkey ≠ d.lkey := fun heq => hgt (heq ▸ hle)
      rw [List.mem_toFinset, he]
      exact (List.mem_erase_of_ne hne).mpr (List.mem_map_of_mem (List.mem_of_getElem? hget))
    have hcard := (Finset.card_le_card hsub).trans (List.toFinset_card_le _)
    rw [Finset.card_image_of_injOn, Finset.card_range, List.length_erase_of_mem hd',
      List.length_map] at hcard
    · have := List.length_pos_of_mem hd
      have := hw.defs_fit_index
      omega
    · intro i hi j hj heq
      exact h.head_injOn (Finset.mem_range.mp hi) (Finset.mem_range.mp hj) heq

/-- **A reset index holds exactly the entries of the default table**, whatever was there before. -/
theorem reset_inUse (hw : Hardware) (index : MacroIndex) :
    ∃ n, IndexInv hw (macroIdxResetDefaults hw index) n ∧
      (∀ e, InUse (macroIdxResetDefaults hw index) n e ↔
        ∃ (idx : Nat) (d : MacroDefInfo), hw.macroDefInfos[idx]? = some d ∧ e = defEntry idx d) ∧
      ∀ i j, i < n → j < n → (macroIdxResetDefaults hw index i).key.head =
        (macroIdxResetDefaults hw index j).key.head → i = j := by
  obtain ⟨m, h⟩ := resetLoop_inv hw index hw.macroIndexCount
  refine ⟨m, h.indexInv, fun e => ⟨?_, ?_⟩, fun i j hi hj => h.head_injOn hi hj⟩
  · rintro ⟨i, hi, rfl⟩
    obtain ⟨idx, d, hget, -, he⟩ := h.used i hi
    exact ⟨idx, d, hget, he⟩
  · rintro ⟨idx, d, hget, rfl⟩
    exact h.covered idx d hget (h.covers (List.mem_of_getElem? hget))

/-! ## The index as a set of triggers -/

/-- The trigger sets present in the index: as many as entries in use, and the same. -/
structure Represents (hw : Hardware) (index : MacroIndex) (n : Nat)
    (present : Finset (Finset LogicalKeycode)) : Prop where
  inv : IndexInv hw index n
  card : present.card = n
  mem_iff : ∀ t : Trigger, t.set ∈ present ↔ ∃ i, i < n ∧ (index i).key = t.key

/-- The triggers of the default macros. -/
def defTriggers (hw : Hardware) : Finset (Finset LogicalKeycode) :=
  (hw.macroDefInfos.map fun d => {d.lkey}).toFinset

theorem defTriggers_card (hw : Hardware) : (defTriggers hw).card = hw.macroDefInfos.length := by
  have hmap : (hw.macroDefInfos.map fun d => ({d.lkey} : Finset LogicalKeycode))
      = (hw.macroDefInfos.map (·.lkey)).map fun a => {a} := by rw [List.map_map]; rfl
  rw [defTriggers, List.toFinset_card_of_nodup, List.length_map]
  rw [hmap]
  exact hw.lkeys_nodup.map Finset.singleton_injective

theorem mem_defTriggers_iff {s : Finset LogicalKeycode} :
    s ∈ defTriggers hw ↔ ∃ d ∈ hw.macroDefInfos, {d.lkey} = s := by
  rw [defTriggers, List.mem_toFinset, List.mem_map]

/-- **A reset index holds exactly the default triggers**, whatever the array held before. -/
theorem reset_represents (hw : Hardware) (index : MacroIndex) :
    ∃ n, Represents hw (macroIdxResetDefaults hw index) n (defTriggers hw) := by
  obtain ⟨n, hinv, huse, hinj⟩ := reset_inUse hw index
  refine ⟨n, hinv, ?_, fun t => ?_⟩
  · conv_rhs => rw [← Finset.card_range n]
    refine (Finset.card_bij (fun i _ => {(macroIdxResetDefaults hw index i).key.head}) ?_ ?_ ?_).symm
    · intro i hi
      obtain ⟨idx, d, hget, he⟩ := (huse _).mp ⟨i, Finset.mem_range.mp hi, rfl⟩
      rw [mem_defTriggers_iff, he]
      exact ⟨d, List.mem_of_getElem? hget, rfl⟩
    · intro i hi j hj heq
      exact hinj i j (Finset.mem_range.mp hi) (Finset.mem_range.mp hj)
        (Finset.singleton_injective heq)
    · intro s hs
      obtain ⟨d, hd, rfl⟩ := mem_defTriggers_iff.mp hs
      obtain ⟨idx, hget⟩ := List.mem_iff_getElem?.mp hd
      obtain ⟨i, hi, he⟩ := (huse _).mpr ⟨idx, d, hget, rfl⟩
      exact ⟨i, Finset.mem_range.mpr hi, by rw [he]; rfl⟩
  · rw [mem_defTriggers_iff]
    constructor
    · rintro ⟨d, hd, hset⟩
      obtain ⟨idx, hget⟩ := List.mem_iff_getElem?.mp hd
      obtain ⟨i, hi, he⟩ := (huse _).mpr ⟨idx, d, hget, rfl⟩
      refine ⟨i, hi, ?_⟩
      rw [he, defEntry_key idx d (hw.lkeys_valid d hd).2]
      exact Trigger.key_inj.mpr hset
    · rintro ⟨i, hi, hk⟩
      obtain ⟨idx, d, hget, he⟩ := (huse _).mp ⟨i, hi, rfl⟩
      have hd := List.mem_of_getElem? hget
      refine ⟨d, hd, ?_⟩
      rw [he, defEntry_key idx d (hw.lkeys_valid d hd).2] at hk
      exact Trigger.key_inj.mp hk

/-! ## Histories -/

/-- A trigger as it arrives: `count` distinct keys in any order at the front of a buffer. -/
structure KeyBuffer where
  buf : MacroIdxKey
  count : Nat
  trigger : Trigger
  count_le : count ≤ macroMaxKeys
  nodup : (buf.keys.take count).Nodup
  toFinset_eq : (buf.keys.take count).toFinset = trigger.set

/-- The key array the caller passes on, formatted. -/
def KeyBuffer.key (b : KeyBuffer) : MacroIdxKey := (macroIdxFormatKey b.buf b.count).1

theorem KeyBuffer.key_eq (b : KeyBuffer) : b.key = b.trigger.key := by
  have hlen : (b.buf.keys.take b.count).length = b.count := by
    rw [List.length_take, b.buf.keys_length]; exact Nat.min_eq_left b.count_le
  have hspec := format_key_spec b.trigger b.buf (b.buf.keys.take b.count) b.nodup b.toFinset_eq
    (by rw [hlen])
  rw [hlen] at hspec
  rw [KeyBuffer.key, hspec]

/-- The operations on the index, with the caller's lookup in front: a key set is created only when
    it is not there, and only entries that are there are removed or written. -/
inductive IndexOp where
  | create (b : KeyBuffer)
  | remove (b : KeyBuffer)
  | setData (b : KeyBuffer) (d : MacroIdxEntryData)

/-- What an operation does to the array. -/
def IndexOp.run (hw : Hardware) (index : MacroIndex) : IndexOp → MacroIndex
  | .create b =>
    match macroIdxLookup hw index b.key with
    | some _ => index
    | none => ((macroIdxCreate hw index b.key).map (·.2)).getD index
  | .remove b =>
    match macroIdxLookup hw index b.key with
    | some mi => macroIdxRemove hw index mi
    | none => index
  | .setData b d =>
    match macroIdxLookup hw index b.key with
    | some mi => macroIdxSetData index mi d
    | none => index

/-- What an operation does to the set of triggers present: created and not removed since. -/
def IndexOp.present (hw : Hardware) (present : Finset (Finset LogicalKeycode)) :
    IndexOp → Finset (Finset LogicalKeycode)
  | .create b => if present.card < hw.macroIndexCount then insert b.trigger.set present else present
  | .remove b => present.erase b.trigger.set
  | .setData _ _ => present

variable {present : Finset (Finset LogicalKeycode)}

theorem Represents.lookup_isSome_iff (h : Represents hw index n present) (t : Trigger) :
    (macroIdxLookup hw index t.key).isSome ↔ t.set ∈ present := by
  rw [h.mem_iff, Option.isSome_iff_exists]
  exact exists_congr fun i => macroIdxLookup_eq_some_iff h.inv t.key_head

theorem Represents.fresh (h : Represents hw index n present) {t : Trigger}
    (ht : t.set ∉ present) : ∀ i, i < n → (index i).key ≠ t.key :=
  fun i hi he => ht ((h.mem_iff t).mpr ⟨i, hi, he⟩)

theorem Represents.create (h : Represents hw index n present) {t : Trigger}
    (ht : t.set ∉ present) {r : Nat} {index' : MacroIndex}
    (hc : macroIdxCreate hw index t.key = some (r, index')) :
    Represents hw index' (n + 1) (insert t.set present) where
  inv := h.inv.create (h.fresh ht) hc
  card := by rw [Finset.card_insert_of_notMem ht, h.card]
  mem_iff t' := by
    obtain ⟨hr, hkey, huse⟩ := create_inUse h.inv (h.fresh ht) hc
    have hexists : (∃ i, i < n + 1 ∧ (index' i).key = t'.key) ↔
        ∃ e, InUse index' (n + 1) e ∧ e.key = t'.key :=
      ⟨fun ⟨i, hi, hk⟩ => ⟨index' i, ⟨i, hi, rfl⟩, hk⟩, fun ⟨_, ⟨i, hi, rfl⟩, hk⟩ => ⟨i, hi, hk⟩⟩
    rw [Finset.mem_insert, h.mem_iff, hexists]
    constructor
    · rintro (heq | ⟨i, hi, hk⟩)
      · exact ⟨index' r, ⟨r, hr, rfl⟩, by rw [hkey]; exact Trigger.key_inj.mpr heq.symm⟩
      · exact ⟨index i, (huse _).mpr (Or.inl ⟨i, hi, rfl⟩), hk⟩
    · rintro ⟨e, he, hk⟩
      rcases (huse e).mp he with ⟨i, hi, rfl⟩ | rfl
      · exact Or.inr ⟨i, hi, hk⟩
      · exact Or.inl (Trigger.key_inj.mp (hk.symm.trans hkey))

theorem Represents.remove (h : Represents hw index n present) {t : Trigger} {mi : Nat}
    (hi : mi < n) (hk : (index mi).key = t.key) :
    Represents hw (macroIdxRemove hw index mi) (n - 1) (present.erase t.set) where
  inv := h.inv.remove hi
  card := by rw [Finset.card_erase_of_mem ((h.mem_iff t).mpr ⟨mi, hi, hk⟩), h.card]
  mem_iff t' := by
    rw [Finset.mem_erase, h.mem_iff]
    constructor
    · rintro ⟨hne, j, hj, hjk⟩
      obtain ⟨i, hin, he⟩ := (remove_inUse h.inv hi (index j)).mpr
        ⟨⟨j, hj, rfl⟩, fun heq => hne (Trigger.key_inj.mp (hjk.symm.trans (heq.trans hk)))⟩
      exact ⟨i, hin, by rw [he, hjk]⟩
    · rintro ⟨i, hin, hik⟩
      obtain ⟨⟨j, hj, he⟩, hne⟩ := (remove_inUse h.inv hi _).mp ⟨i, hin, rfl⟩
      refine ⟨fun heq => hne ?_, j, hj, by rw [he, hik]⟩
      rw [hik, hk]
      exact Trigger.key_inj.mpr heq

theorem Represents.setData (h : Represents hw index n present) (mi : Nat) (d : MacroIdxEntryData) :
    Represents hw (macroIdxSetData index mi d) n present where
  inv := h.inv.setData mi d
  card := h.card
  mem_iff t := by
    rw [h.mem_iff]
    exact exists_congr fun i => by rw [macroIdxSetData_key]

/-- Create on a represented index: it fails exactly when the set has `MACRO_INDEX_COUNT` members. -/
theorem Represents.create_eq_none_iff (h : Represents hw index n present) (key : MacroIdxKey) :
    macroIdxCreate hw index key = none ↔ present.card = hw.macroIndexCount := by
  rw [macroIdxCreate_eq_none_iff h.inv, h.card]

/-- Every operation does to the array what it does to the set. -/
theorem Represents.run (h : Represents hw index n present) (op : IndexOp) :
    ∃ n', Represents hw (op.run hw index) n' (op.present hw present) := by
  cases op with
  | create b =>
    rw [IndexOp.run, IndexOp.present, b.key_eq]
    by_cases hmem : b.trigger.set ∈ present
    · obtain ⟨i, hi⟩ := Option.isSome_iff_exists.mp ((h.lookup_isSome_iff _).mpr hmem)
      rw [hi, Finset.insert_eq_self.mpr hmem, ite_self]
      exact ⟨n, h⟩
    · have hnone : macroIdxLookup hw index b.trigger.key = none :=
        Option.not_isSome_iff_eq_none.mp (mt (h.lookup_isSome_iff _).mp hmem)
      rw [hnone]
      cases hc : macroIdxCreate hw index b.trigger.key with
      | none =>
        rw [if_neg ((h.create_eq_none_iff _).mp hc).not_lt]
        exact ⟨n, h⟩
      | some res =>
        have hfree : present.card < hw.macroIndexCount :=
          lt_of_le_of_ne (h.card ▸ h.inv.le_count) fun hfull => by
            rw [(h.create_eq_none_iff _).mpr hfull] at hc
            exact absurd hc (by simp)
        rw [if_pos hfree]
        exact ⟨n + 1, h.create hmem hc⟩
  | remove b =>
    rw [IndexOp.run, IndexOp.present, b.key_eq]
    cases hl : macroIdxLookup hw index b.trigger.key with
    | none =>
      have hmem : b.trigger.set ∉ present := fun hm => by
        have := (h.lookup_isSome_iff _).mpr hm
        rw [hl] at this
        exact absurd this (by simp)
      rw [Finset.erase_eq_of_notMem hmem]
      exact ⟨n, h⟩
    | some mi =>
      obtain ⟨hi, hk⟩ := (macroIdxLookup_eq_some_iff h.inv b.trigger.key_head).mp hl
      exact ⟨n - 1, h.remove hi hk⟩
  | setData b d =>
    rw [IndexOp.run, IndexOp.present]
    split
    · exact ⟨n, h.setData _ d⟩
    · exact ⟨n, h⟩

theorem Represents.runAll (h : Represents hw index n present) (ops : List IndexOp) :
    ∃ n', Represents hw (ops.foldl (IndexOp.run hw) index) n'
      (ops.foldl (IndexOp.present hw) present) := by
  induction ops generalizing index n present with
  | nil => exact ⟨n, h⟩
  | cons op ops ih =>
    obtain ⟨n', h'⟩ := h.run op
    exact ih h'

/-- **The macro index is a map, after every history.**  From a reset of any array on, and for any
    operations, with `present` the triggers created and not removed since: the entries in use are a
    strictly ascending prefix, one for each trigger present; lookup of a key set given in any order
    finds the entry with its keys exactly when it is present; create fails exactly when the index
    is full; and create and remove leave every other trigger's keys and value as they were. -/
theorem index_history (hw : Hardware) (index₀ : MacroIndex) (ops : List IndexOp) :
    let index := ops.foldl (IndexOp.run hw) (macroIdxResetDefaults hw index₀)
    let present := ops.foldl (IndexOp.present hw) (defTriggers hw)
    IndexInv hw index present.card ∧
    (∀ b : KeyBuffer, (macroIdxLookup hw index b.key).isSome ↔ b.trigger.set ∈ present) ∧
    (∀ (b : KeyBuffer) (i : Nat), macroIdxLookup hw index b.key = some i →
      i < present.card ∧ (index i).key = b.trigger.key) ∧
    (∀ b : KeyBuffer, b.trigger.set ∉ present →
      (macroIdxCreate hw index b.key = none ↔ present.card = hw.macroIndexCount)) ∧
    (∀ (b : KeyBuffer) (r : Nat) (index' : MacroIndex), b.trigger.set ∉ present →
      macroIdxCreate hw index b.key = some (r, index') →
      (index' r).key = b.trigger.key ∧
        ∀ t : Trigger, t.set ≠ b.trigger.set → entryOf hw index' t = entryOf hw index t) ∧
    (∀ (b : KeyBuffer) (mi : Nat), macroIdxLookup hw index b.key = some mi →
      ∀ t : Trigger, t.set ≠ b.trigger.set →
        entryOf hw (macroIdxRemove hw index mi) t = entryOf hw index t) := by
  obtain ⟨n₀, h₀⟩ := reset_represents hw index₀
  obtain ⟨n, h⟩ := h₀.runAll ops
  intro index present
  have hcard : present.card = n := h.card
  have hfound : ∀ (b : KeyBuffer) (i : Nat), macroIdxLookup hw index b.key = some i →
      i < n ∧ (index i).key = b.trigger.key := by
    intro b i hi
    rw [b.key_eq] at hi
    exact (macroIdxLookup_eq_some_iff h.inv b.trigger.key_head).mp hi
  refine ⟨hcard.symm ▸ h.inv, ?_, ?_, ?_, ?_, ?_⟩
  · intro b
    rw [b.key_eq]
    exact h.lookup_isSome_iff b.trigger
  · intro b i hi
    rw [hcard]
    exact hfound b i hi
  · intro b _
    exact h.create_eq_none_iff b.key
  · intro b r index' hnew hc
    rw [b.key_eq] at hc
    have hfresh := h.fresh hnew
    exact ⟨(create_inUse h.inv hfresh hc).2.1,
      fun t hne => entryOf_create h.inv hfresh hc hne⟩
  · intro b mi hl t hne
    obtain ⟨hi, hk⟩ := hfound b mi hl
    exact entryOf_remove h.inv hi hk hne

end KeyboardFirmware
