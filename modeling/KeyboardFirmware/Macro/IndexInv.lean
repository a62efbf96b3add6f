/-
  The macro index as a sorted map.

  `IndexInv hw index n` is the representation invariant: the first `n` entries carry formatted
  trigger keys in strictly ascending order, every later one is empty.  Each operation gets one
  specification lemma that says what the whole array looks like afterwards (`shiftUp`,
  `shiftDown`: which entry ends up where), and preservation of the invariant, the map view and the
  frame are read off those descriptions.
-/
import KeyboardFirmware.Macro.MacroIndex
import Mathlib.Data.Finset.Sort

namespace KeyboardFirmware

open Lib

/-! ## Triggers and their formatted keys -/

/-- A trigger: the set of logical keys pressed together, between one and `MACRO_MAX_KEYS`. -/
structure Trigger where
  set : Finset LogicalKeycode
  nonempty : set.Nonempty
  card_le : set.card ≤ macroMaxKeys
  noKey_notMem : noKey ∉ set

/-- The formatted key of a trigger: ascending, filled up with `NO_KEY`. -/
def Trigger.key (t : Trigger) : MacroIdxKey :=
  ⟨t.set.sort (· ≤ ·) ++ List.replicate (macroMaxKeys - t.set.card) noKey, by
    have := t.card_le
    simp; omega⟩

theorem Trigger.key_head (t : Trigger) : t.key.head ≠ noKey := by
  obtain ⟨a, ha⟩ := t.nonempty
  have hmem : a ∈ t.set.sort (· ≤ ·) := (Finset.mem_sort _).mpr ha
  cases hs : t.set.sort (· ≤ ·) with
  | nil => rw [hs] at hmem; exact absurd hmem List.not_mem_nil
  | cons b l =>
    have hb : b ∈ t.set := by rw [← Finset.mem_sort (· ≤ ·), hs]; exact List.mem_cons_self ..
    show (t.set.sort (· ≤ ·) ++ _).getD 0 0 ≠ noKey
    rw [hs]
    show b ≠ noKey
    exact fun h => t.noKey_notMem (h ▸ hb)

/-- The key determines the trigger: its codes other than `NO_KEY` are the trigger's keys. -/
theorem Trigger.mem_key_iff (t : Trigger) (a : LogicalKeycode) :
    a ∈ t.set ↔ a ∈ t.key.keys ∧ a ≠ noKey := by
  constructor
  · intro ha
    refine ⟨List.mem_append_left _ ((Finset.mem_sort _).mpr ha), ?_⟩
    exact fun h => t.noKey_notMem (h ▸ ha)
  · rintro ⟨ha, hne⟩
    rcases List.mem_append.mp ha with h | h
    · exact (Finset.mem_sort _).mp h
    · exact absurd (List.eq_of_mem_replicate h) hne

theorem Trigger.key_inj {t t' : Trigger} : t.key = t'.key ↔ t.set = t'.set := by
  constructor
  · intro h
    ext a
    rw [t.mem_key_iff, t'.mem_key_iff, h]
  · intro h
    apply MacroIdxKey.keys_injective
    show t.set.sort (· ≤ ·) ++ _ = t'.set.sort (· ≤ ·) ++ _
    rw [h]

/-- **`macro_idx_format_key` normalises**: whatever the order in which the keys of a trigger stand
    in the buffer, and whatever is behind them, the formatted key is the trigger's. -/
theorem format_key_spec (t : Trigger) (buf : MacroIdxKey) (ks : List LogicalKeycode)
    (hnd : ks.Nodup) (hset : ks.toFinset = t.set) (hbuf : buf.keys.take ks.length = ks) :
    macroIdxFormatKey buf ks.length = (t.key, true) := by
  have hcard : ks.length = t.set.card := by rw [← hset, List.toFinset_card_of_nodup hnd]
  obtain ⟨out, hout, hperm, hsort⟩ := insertionsort_spec ks (buf.keys.drop ks.length)
  have hsplit : ks ++ buf.keys.drop ks.length = buf.keys := by
    conv_lhs => rw [← hbuf]
    rw [List.length_take, Nat.min_eq_left (by rw [buf.keys_length, hcard]; exact t.card_le)]
    exact List.take_append_drop _ _
  rw [hsplit] at hout
  have hsorted : t.set.sort (· ≤ ·) = out := by
    rw [← hset, ← List.toFinset_eq_of_perm _ _ hperm]
    exact (List.toFinset_sort _ (hperm.nodup_iff.mpr hnd)).mpr (List.sortedLE_iff_pairwise.mp hsort)
  have hlen : out.length = ks.length := hperm.length_eq
  have hkeys : ((List.range macroMaxKeys).map fun i =>
      if i < ks.length then (insertionsortUint8 buf.keys ks.length).getD i 0 else noKey)
      = t.key.keys := by
    show _ = t.set.sort (· ≤ ·) ++ List.replicate (macroMaxKeys - t.set.card) noKey
    rw [hout, hsorted]
    refine List.ext_getElem (by have := t.card_le; simp; omega) fun i h1 h2 => ?_
    simp only [List.length_map, List.length_range] at h1
    rw [List.getElem_map, List.getElem_range]
    by_cases hi : i < ks.length
    · rw [if_pos hi, List.getElem_append_left (by omega), List.getD_eq_getElem?_getD,
        List.getElem?_append_left (by omega), List.getElem?_eq_getElem (by omega)]
      rfl
    · rw [if_neg hi, List.getElem_append_right (by omega), List.getElem_replicate]
  have hkey : (macroIdxFormatKey buf ks.length).1 = t.key := MacroIdxKey.keys_injective hkeys
  refine Prod.ext hkey ?_
  show decide ((macroIdxFormatKey buf ks.length).1.head ≠ noKey) = true
  rw [hkey]
  exact decide_eq_true t.key_head

/-! ## The representation invariant -/

/-- The first `n` entries are in use, with strictly ascending trigger keys; the others are empty. -/
structure IndexInv (hw : Hardware) (index : MacroIndex) (n : Nat) : Prop where
  le_count : n ≤ hw.macroIndexCount
  used : ∀ i, i < n → ∃ t : Trigger, (index i).key = t.key
  ascending : ∀ i j, i < j → j < n → (index i).key < (index j).key
  empty : ∀ i, n ≤ i → i < hw.macroIndexCount → (index i).key = emptyKey

variable {hw : Hardware} {index : MacroIndex} {n : Nat}

theorem IndexInv.head_used (h : IndexInv hw index n) {i : Nat} (hi : i < n) :
    (index i).key.head ≠ noKey := by
  obtain ⟨t, ht⟩ := h.used i hi
  rw [ht]; exact t.key_head

theorem IndexInv.head_empty (h : IndexInv hw index n) {i : Nat} (hi : n ≤ i)
    (hc : i < hw.macroIndexCount) : (index i).key.head = noKey := by
  rw [h.empty i hi hc]; rfl

/-- The code's test for "in use" tells exactly the first `n` entries from the others. -/
theorem IndexInv.head_eq_iff (h : IndexInv hw index n) {i : Nat} (hc : i < hw.macroIndexCount) :
    (index i).key.head = noKey ↔ n ≤ i := by
  constructor
  · intro he
    exact Nat.le_of_not_lt fun hi => h.head_used hi he
  · exact fun hi => h.head_empty hi hc

/-- Along the whole array, empty tail included, keys never descend. -/
theorem IndexInv.monotone (h : IndexInv hw index n) {i j : Nat} (hij : i ≤ j)
    (hj : j < hw.macroIndexCount) : (index i).key ≤ (index j).key := by
  rcases Nat.lt_or_ge j n with hjn | hjn
  · rcases Nat.lt_or_eq_of_le hij with hlt | rfl
    · exact (h.ascending i j hlt hjn).le
    · exact le_rfl
  · rw [h.empty j hjn hj]
    rcases Nat.lt_or_ge i n with hin | hin
    · exact (MacroIdxKey.lt_emptyKey (h.head_used hin)).le
    · rw [h.empty i hin (by omega)]

theorem IndexInv.key_injOn (h : IndexInv hw index n) {i j : Nat} (hi : i < n) (hj : j < n)
    (heq : (index i).key = (index j).key) : i = j := by
  rcases Nat.lt_trichotomy i j with hlt | rfl | hlt
  · exact absurd heq (h.ascending i j hlt hj).ne
  · rfl
  · exact absurd heq (h.ascending j i hlt hi).ne'

/-! ## Lookup -/

theorem IndexInv.cmpSorted (h : IndexInv hw index n) (key : MacroIdxKey) :
    CmpSorted (fun i => macroIdxCmp key.keys (index i).key.keys) hw.macroIndexCount where
  pos_of_le i j hij hj hp := by
    rw [macroIdxCmp_pos_iff] at hp ⊢
    exact lt_of_le_of_lt (h.monotone hij hj) hp
  neg_of_le i j hij hj hn := by
    rw [macroIdxCmp_neg_iff] at hn ⊢
    exact lt_of_lt_of_le hn (h.monotone hij hj)

/-- A key with a real first code is never the key of an empty entry. -/
theorem IndexInv.lt_of_key_eq (h : IndexInv hw index n) {key : MacroIdxKey}
    (hk : key.head ≠ noKey) {i : Nat} (hc : i < hw.macroIndexCount)
    (he : (index i).key = key) : i < n :=
  Nat.lt_of_not_le fun hn => hk (he ▸ h.head_empty hn hc)

/-- **Lookup finds exactly the entry with the key.** -/
theorem macroIdxLookup_eq_some_iff (h : IndexInv hw index n) {key : MacroIdxKey}
    (hk : key.head ≠ noKey) {i : Nat} :
    macroIdxLookup hw index key = some i ↔ i < n ∧ (index i).key = key := by
  have hcmp : ∀ j, macroIdxCmp key.keys (index j).key.keys = 0 ↔ (index j).key = key :=
    fun j => macroIdxCmp_zero_iff.trans eq_comm
  rw [macroIdxLookup, bsearch_eq_some_iff (h.cmpSorted key), hcmp]
  · constructor
    · rintro ⟨hc, he⟩; exact ⟨h.lt_of_key_eq hk hc he, he⟩
    · rintro ⟨hi, he⟩; exact ⟨Nat.lt_of_lt_of_le hi h.le_count, he⟩
  · intro a b ha hb hza hzb
    rw [hcmp] at hza hzb
    exact h.key_injOn (h.lt_of_key_eq hk ha hza) (h.lt_of_key_eq hk hb hzb) (hza.trans hzb.symm)

theorem macroIdxLookup_eq_none_iff (h : IndexInv hw index n) {key : MacroIdxKey}
    (hk : key.head ≠ noKey) :
    macroIdxLookup hw index key = none ↔ ∀ i, i < n → (index i).key ≠ key := by
  rw [Option.eq_none_iff_forall_ne_some]
  exact forall_congr' fun i => by
    rw [ne_eq, macroIdxLookup_eq_some_iff h hk, not_and]

/-! ## Set data -/

/-- Writing a value changes no key, so nothing the invariant speaks of. -/
theorem macroIdxSetData_key (index : MacroIndex) (mh : Nat) (d : MacroIdxEntryData) (i : Nat) :
    (macroIdxSetData index mh d i).key = (index i).key := by
  by_cases hi : i = mh
  · subst hi; simp [macroIdxSetData]
  · simp [macroIdxSetData, hi]

theorem macroIdxSetData_of_ne (index : MacroIndex) {mh i : Nat} (d : MacroIdxEntryData)
    (hi : i ≠ mh) : macroIdxSetData index mh d i = index i := by
  simp [macroIdxSetData, hi]

/-- The invariant speaks of keys only. -/
theorem IndexInv.of_key_eq (h : IndexInv hw index n) {index' : MacroIndex}
    (heq : ∀ i, (index' i).key = (index i).key) : IndexInv hw index' n where
  le_count := h.le_count
  used i hi := by rw [heq]; exact h.used i hi
  ascending i j hij hj := by rw [heq, heq]; exact h.ascending i j hij hj
  empty i hi hc := by rw [heq]; exact h.empty i hi hc

theorem IndexInv.setData (h : IndexInv hw index n) (mh : Nat) (d : MacroIdxEntryData) :
    IndexInv hw (macroIdxSetData index mh d) n :=
  h.of_key_eq (macroIdxSetData_key index mh d)

/-! ## Remove -/

/-- The entry a removal pulls down into position `j`: the next one, an empty one at the end. -/
def pulledEntry (hw : Hardware) (index : MacroIndex) (j : Nat) : MacroIdxEntry :=
  if j = hw.macroIndexCount - 1 then emptyEntry else index (j + 1)

/-- The array after removing entry `mi` of `n`: the later entries have moved down by one, and the
    last used position holds what stood behind it. -/
def shiftDown (hw : Hardware) (index : MacroIndex) (mi n : Nat) : MacroIndex := fun j =>
  if mi ≤ j ∧ j < n then pulledEntry hw index j else index j

theorem pulledEntry_of_lt {j : Nat} (hj : j + 1 < hw.macroIndexCount) :
    pulledEntry hw index j = index (j + 1) := by
  rw [pulledEntry, if_neg (by omega)]

theorem IndexInv.pulledEntry_last (h : IndexInv hw index n) {j : Nat} (hj : j + 1 = n) :
    (pulledEntry hw index j).key = emptyKey := by
  have := h.le_count
  rw [pulledEntry]
  split
  · rfl
  · exact h.empty (j + 1) (by omega) (by omega)

/-- The remove loop stops exactly when it has overwritten the last used entry. -/
theorem macroIdxRemoveLoop_eq (h : IndexInv hw index n) : ∀ (fuel i : Nat) (cur : MacroIndex),
    fuel = hw.macroIndexCount - i → i < n → (∀ j, i < j → cur j = index j) →
    macroIdxRemoveLoop hw fuel i cur
      = fun j => if i ≤ j ∧ j < n then pulledEntry hw index j else cur j := by
  intro fuel
  induction fuel with
  | zero => intro i cur hf hi _; have := h.le_count; omega
  | succ fuel ih =>
    intro i cur hf hi hcur
    have hcount := h.le_count
    have htmp : (if i = hw.macroIndexCount - 1 then emptyEntry else cur (i + 1))
        = pulledEntry hw index i := by
      rw [hcur (i + 1) (by omega), pulledEntry]
    rw [macroIdxRemoveLoop, htmp]
    by_cases hlast : i + 1 = n
    · -- the entry pulled down is empty: the loop ends here
      have hempty : (pulledEntry hw index i).key.head = noKey := by
        rw [h.pulledEntry_last hlast]; rfl
      rw [if_pos hempty]
      funext j
      by_cases hj : j = i
      · subst hj
        rw [Function.update_self, if_pos ⟨le_refl j, hi⟩]
      · rw [Function.update_of_ne hj, if_neg (by omega)]
    · have hused : (pulledEntry hw index i).key.head ≠ noKey := by
        rw [pulledEntry_of_lt (by omega)]
        exact h.head_used (by omega)
      rw [if_neg hused, ih (i + 1) _ (by omega) (by omega)]
      · funext j
        by_cases hj : i + 1 ≤ j ∧ j < n
        · rw [if_pos hj, if_pos (by omega)]
        · rw [if_neg hj]
          by_cases hji : j = i
          · subst hji
            rw [Function.update_self, if_pos (by omega)]
          · rw [Function.update_of_ne hji, if_neg (by omega)]
      · intro j hj
        rw [Function.update_of_ne (by omega), hcur j (by omega)]

theorem macroIdxRemove_eq (h : IndexInv hw index n) {mi : Nat} (hi : mi < n) :
    macroIdxRemove hw index mi = shiftDown hw index mi n := by
  rw [macroIdxRemove, macroIdxRemoveLoop_eq h _ mi index rfl hi (fun _ _ => rfl)]
  rfl

/-- Which old entry stands at a used position after a removal. -/
theorem shiftDown_of_lt (h : IndexInv hw index n) {mi j : Nat} (hj : j + 1 < n) :
    shiftDown hw index mi n j = if mi ≤ j then index (j + 1) else index j := by
  have := h.le_count
  by_cases hm : mi ≤ j
  · rw [shiftDown, if_pos ⟨hm, by omega⟩, pulledEntry_of_lt (by omega), if_pos hm]
  · rw [shiftDown, if_neg (by omega), if_neg hm]

/-- **Removing keeps the invariant**, with one entry less. -/
theorem IndexInv.remove (h : IndexInv hw index n) {mi : Nat} (hi : mi < n) :
    IndexInv hw (macroIdxRemove hw index mi) (n - 1) := by
  have hcount := h.le_count
  rw [macroIdxRemove_eq h hi]
  refine ⟨by omega, ?_, ?_, ?_⟩
  · intro i hin
    rw [shiftDown_of_lt h (by omega)]
    split
    · exact h.used (i + 1) (by omega)
    · exact h.used i (by omega)
  · intro i j hij hj
    rw [shiftDown_of_lt h (by omega), shiftDown_of_lt h (by omega)]
    split <;> split <;> exact h.ascending _ _ (by omega) (by omega)
  · intro i hin hc
    rw [shiftDown]
    split
    · exact h.pulledEntry_last (by omega)
    · exact h.empty i (by omega) hc

/-! ## Create -/

/-- The array while a hole at `r` is open: the entries from `r` on have moved up by one. -/
def shiftUp (index : MacroIndex) (r n : Nat) : MacroIndex := fun j =>
  if r < j ∧ j ≤ n then index (j - 1) else index j

/-- The create loop finds the place `r` in front of the first larger key and opens it. -/
theorem macroIdxCreateLoop_eq (h : IndexInv hw index n) {key : MacroIdxKey}
    (hk : key.head ≠ noKey) : ∀ (i : Nat) (cur : MacroIndex), i < hw.macroIndexCount →
    (∀ j, i ≤ j → j < n → key < (index j).key) →
    (∀ j, j ≤ i → cur j = index j) → (∀ j, i < j → cur j = shiftUp index i n j) →
    ∃ r, r ≤ n ∧ (∀ j, j < r → (index j).key ≤ key) ∧ (∀ j, r ≤ j → j < n → key < (index j).key) ∧
      macroIdxCreateLoop key i cur = (r, shiftUp index r n) := by
  intro i
  induction i with
  | zero =>
    intro cur _ habove hlow hhigh
    refine ⟨0, Nat.zero_le n, fun j hj => absurd hj (Nat.not_lt_zero j), habove, ?_⟩
    rw [macroIdxCreateLoop]
    refine Prod.ext rfl (funext fun j => ?_)
    rcases Nat.eq_zero_or_pos j with rfl | hpos
    · simp [hlow, shiftUp]
    · exact hhigh j hpos
  | succ i ih =>
    intro cur hi habove hlow hhigh
    rw [macroIdxCreateLoop, hlow i (Nat.le_succ i)]
    split
    · next hcmp =>
      have hle : (index i).key ≤ key := macroIdxCmp_nonneg_iff.mp hcmp
      have hin : i < n := Nat.lt_of_not_le fun hn => by
        rw [h.empty i hn (by omega)] at hle
        exact absurd (MacroIdxKey.lt_emptyKey hk) (not_lt.mpr hle)
      refine ⟨i + 1, hin, fun j hj => ?_, habove, ?_⟩
      · exact (h.monotone (by omega) (by omega)).trans hle
      · refine Prod.ext rfl (funext fun j => ?_)
        rcases Nat.lt_or_ge (i + 1) j with hj | hj
        · exact hhigh j hj
        · show cur j = shiftUp index (i + 1) n j
          rw [hlow j hj, shiftUp, if_neg (by omega)]
    · next hcmp =>
      have hlt' : key < (index i).key := not_le.mp fun hle => hcmp (macroIdxCmp_nonneg_iff.mpr hle)
      have habove' : ∀ j, i ≤ j → j < n → key < (index j).key := by
        intro j hj hjn
        rcases Nat.lt_or_eq_of_le hj with hj' | rfl
        · exact habove j hj' hjn
        · exact hlt'
      split
      · next hempty =>
        -- an empty entry in front of the hole: nothing has been moved yet
        have hn : n ≤ i := (h.head_eq_iff (by omega)).mp hempty
        refine ih cur (by omega) habove' (fun j hj => hlow j (by omega)) (fun j hj => ?_)
        rw [shiftUp, if_neg (by omega)]
        rcases Nat.lt_or_ge (i + 1) j with hj' | hj'
        · rw [hhigh j hj', shiftUp, if_neg (by omega)]
        · rw [hlow j hj']
      · next hused =>
        have hin : i < n := Nat.lt_of_not_le fun hn => hused (h.head_empty hn (by omega))
        refine ih _ (by omega) habove' (fun j hj => ?_) (fun j hj => ?_)
        · rw [Function.update_of_ne (by omega), hlow j (by omega)]
        · by_cases hj' : j = i + 1
          · subst hj'
            rw [Function.update_self, shiftUp, if_pos (by omega)]
            rfl
          · rw [Function.update_of_ne hj', hhigh j (by omega), shiftUp, shiftUp]
            by_cases hjn : j ≤ n
            · rw [if_pos (by omega), if_pos (by omega)]
            · rw [if_neg (by omega), if_neg (by omega)]

/-- **Create is sorted insertion**: with a free entry left it opens the place in front of the
    first larger key and writes the key there, keeping the value that stood at that place. -/
theorem macroIdxCreate_eq (h : IndexInv hw index n) (hfree : n < hw.macroIndexCount)
    {key : MacroIdxKey} (hk : key.head ≠ noKey) (hnew : ∀ i, i < n → (index i).key ≠ key) :
    ∃ r, r ≤ n ∧ (∀ j, j < r → (index j).key < key) ∧ (∀ j, r ≤ j → j < n → key < (index j).key) ∧
      macroIdxCreate hw index key
        = some (r, Function.update (shiftUp index r n) r { index r with key := key }) := by
  obtain ⟨r, hr, hbelow, habove, heq⟩ :=
    macroIdxCreateLoop_eq h hk (hw.macroIndexCount - 1) index (by omega)
      (fun j hj hjn => by omega) (fun _ _ => rfl)
      (fun j hj => by rw [shiftUp, if_neg (by omega)])
  refine ⟨r, hr, fun j hj => lt_of_le_of_ne (hbelow j hj) (hnew j (by omega)), habove, ?_⟩
  have hlast : (index (hw.macroIndexCount - 1)).key.head = noKey :=
    h.head_empty (by omega) (by omega)
  rw [macroIdxCreate, if_neg (not_not.mpr hlast), heq]
  have hsame : shiftUp index r n r = index r := by rw [shiftUp, if_neg (by omega)]
  simp only [hsame]

/-- Create fails exactly on a full index. -/
theorem macroIdxCreate_eq_none_iff (h : IndexInv hw index n) (key : MacroIdxKey) :
    macroIdxCreate hw index key = none ↔ n = hw.macroIndexCount := by
  have hpos := hw.count_pos
  have hcount := h.le_count
  have hlast : (index (hw.macroIndexCount - 1)).key.head = noKey ↔ n ≤ hw.macroIndexCount - 1 :=
    h.head_eq_iff (by omega)
  rw [macroIdxCreate]
  by_cases hfull : n = hw.macroIndexCount
  · rw [if_pos (by rw [ne_eq, hlast]; omega)]
    simp [hfull]
  · rw [if_neg (by rw [ne_eq, not_not, hlast]; omega)]
    simp [hfull]

/-- **Creating keeps the invariant**, with one entry more. -/
theorem IndexInv.create (h : IndexInv hw index n) {t : Trigger}
    (hnew : ∀ i, i < n → (index i).key ≠ t.key) {r : Nat} {index' : MacroIndex}
    (hc : macroIdxCreate hw index t.key = some (r, index')) :
    IndexInv hw index' (n + 1) := by
  have hcount := h.le_count
  have hfree : n < hw.macroIndexCount := by
    refine Nat.lt_of_le_of_ne hcount fun hf => ?_
    rw [(macroIdxCreate_eq_none_iff h t.key).mpr hf] at hc
    exact absurd hc (by simp)
  obtain ⟨r', hr, hbelow, habove, heq⟩ := macroIdxCreate_eq h hfree t.key_head hnew
  rw [heq, Option.some.injEq, Prod.mk.injEq] at hc
  obtain ⟨rfl, rfl⟩ := hc
  have hat : ∀ j, j ≤ n → (Function.update (shiftUp index r' n) r' { index r' with key := t.key } j).key
      = if j < r' then (index j).key else if j = r' then t.key else (index (j - 1)).key := by
    intro j hj
    by_cases hjr : j = r'
    · subst hjr; simp
    · rw [Function.update_of_ne hjr, shiftUp]
      by_cases hlt : j < r'
      · rw [if_neg (by omega), if_pos hlt]
      · rw [if_pos (by omega), if_neg hlt, if_neg hjr]
  refine ⟨hfree, ?_, ?_, ?_⟩
  · intro i hi
    rw [hat i (by omega)]
    split
    · exact h.used i (by omega)
    · split
      · exact ⟨t, rfl⟩
      · exact h.used (i - 1) (by omega)
  · intro i j hij hj
    rw [hat i (by omega), hat j (by omega)]
    rcases Nat.lt_trichotomy i r' with hi | rfl | hi
    · rw [if_pos hi]
      rcases Nat.lt_trichotomy j r' with hj' | rfl | hj'
      · rw [if_pos hj']; exact h.ascending i j hij (by omega)
      · rw [if_neg (by omega), if_pos rfl]; exact hbelow i hi
      · rw [if_neg (by omega), if_neg (by omega)]
        exact h.ascending i (j - 1) (by omega) (by omega)
    · rw [if_neg (by omega), if_pos rfl, if_neg (by omega), if_neg (by omega)]
      exact habove (j - 1) (by omega) (by omega)
    · rw [if_neg (by omega), if_neg (by omega), if_neg (by omega), if_neg (by omega)]
      exact h.ascending (i - 1) (j - 1) (by omega) (by omega)
  · intro i hi hic
    rw [Function.update_of_ne (by omega), shiftUp, if_neg (by omega)]
    exact h.empty i (by omega) hic

end KeyboardFirmware
