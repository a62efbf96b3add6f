/-
  Recordings keep the macro store invariant.

  One recording is `macros_start_macro`, any number of `macros_append`, and `macros_commit_macro`
  or `macros_abort_macro`.  Deleting the old record is the only step that touches both memories:
  `deleteMacroData_spec` shows that closing the hole in the bytes and shifting the entries behind
  it are the same move on the list of records.  `Recording.run_spec` puts the steps together, and
  `recordings_keep_store` is the result over whole histories.
-/
import KeyboardFirmware.Macro.StoreInv

namespace KeyboardFirmware

open Lib

variable {hw : Hardware} {index : MacroIndex} {mem : Storage} {n : Nat} {recs : List Recorded}

/-! ## The walk over the index -/

theorem macroIdxIterateLoop_eq (h : IndexInv hw index n) (f : MacroIdxEntry → MacroIdxEntry)
    {itr : Nat → MacroIndex → MacroIndex}
    (hitr : ∀ i cur, itr i cur = Function.update cur i (f (cur i))) :
    ∀ (fuel i : Nat) (cur : MacroIndex), fuel = hw.macroIndexCount - i →
      (∀ j, i ≤ j → cur j = index j) →
      macroIdxIterateLoop itr fuel i cur = fun j => if i ≤ j ∧ j < n then f (index j) else cur j := by
  intro fuel
  induction fuel with
  | zero =>
    intro i cur hf _
    have := h.le_count
    funext j
    rw [macroIdxIterateLoop, if_neg (by omega)]
  | succ fuel ih =>
    intro i cur hf hcur
    have hic : i < hw.macroIndexCount := by omega
    rw [macroIdxIterateLoop, hcur i le_rfl]
    split
    · next hempty =>
      have := (h.head_eq_iff hic).mp hempty
      funext j
      rw [if_neg (by omega)]
    · next hused =>
      have hin : i < n := Nat.lt_of_not_le fun hn => hused (h.head_empty hn hic)
      rw [hitr, hcur i le_rfl, ih (i + 1) _ (by omega) (fun j hj => by
        rw [Function.update_of_ne (by omega), hcur j (by omega)])]
      funext j
      by_cases hji : j = i
      · subst hji
        rw [if_neg (by omega), Function.update_self, if_pos ⟨le_rfl, hin⟩]
      · rw [Function.update_of_ne hji]
        by_cases hj : i + 1 ≤ j ∧ j < n
        · rw [if_pos hj, if_pos (by omega)]
        · rw [if_neg hj, if_neg (by omega)]

/-- **The walk visits exactly the entries in use**, each once. -/
theorem macroIdxIterate_eq (h : IndexInv hw index n) (f : MacroIdxEntry → MacroIdxEntry)
    {itr : Nat → MacroIndex → MacroIndex}
    (hitr : ∀ i cur, itr i cur = Function.update cur i (f (cur i))) :
    macroIdxIterate hw itr index = fun j => if j < n then f (index j) else index j := by
  rw [macroIdxIterate, macroIdxIterateLoop_eq h f hitr _ 0 index (Nat.sub_zero _).symm
    (fun _ _ => rfl)]
  funext j
  simp

/-- What the shift does to one entry: macro entries behind the offset move down. -/
def shiftEntry (offset len : Fin 65536) (e : MacroIdxEntry) : MacroIdxEntry :=
  if ¬ e.IsProgram ∧ offset < e.val then { e with val := e.val - len } else e

@[simp] theorem shiftEntry_key (offset len : Fin 65536) (e : MacroIdxEntry) :
    (shiftEntry offset len e).key = e.key := by
  rw [shiftEntry]; split <;> rfl

theorem macroShiftDownIterator_eq (offset len : Fin 65536) (i : Nat) (cur : MacroIndex) :
    macroShiftDownIterator offset len i cur
      = Function.update cur i (shiftEntry offset len (cur i)) := by
  by_cases hp : (cur i).IsProgram
  · have htype := (macroIdxGetData_type cur i).mpr hp
    rw [shiftEntry, if_neg (by simp [hp]), Function.update_eq_self]
    simp only [macroShiftDownIterator, htype]
  · simp only [macroShiftDownIterator, macroIdxGetData_not_program hp, shiftEntry, hp, not_false_eq_true,
      true_and]
    split
    · rfl
    · rw [Function.update_eq_self]

/-! ## Deleting a record -/

theorem deleteMacroData_program {st : MacroStore} {i : Nat} (hp : (st.index i).IsProgram) :
    deleteMacroData hw st i = st := by
  simp only [deleteMacroData, (macroIdxGetData_type st.index i).mpr hp]

/-- Where the entries in use stand relative to a record of the area, and what the shift over that
    record does to each. -/
inductive ShiftCase (pre post : List Recorded) (k : MacroIdxKey) (ev : List HidKeycode)
    (e e' : MacroIdxEntry) : Prop
  | program (hp : e.IsProgram) (heq : e' = e)
  | self (hp : ¬ e.IsProgram) (hk : e.key = k) (heq : e' = e)
  | before (hp : ¬ e.IsProgram) (ev' : List HidKeycode) (hpl : Placed pre e.val.val e.key ev')
      (heq : e' = e)
  | behind (hp : ¬ e.IsProgram) (ev' : List HidKeycode) (o : Nat) (hpl : Placed post o e.key ev')
      (hv : e.val.val = (encode pre).length + (ev.length + 2) + o)
      (hk : e'.key = e.key) (hv' : e'.val.val = (encode pre).length + o)

variable {pre post : List Recorded} {k : MacroIdxKey} {ev : List HidKeycode}

/-- A record of the split list is in front of the record in the middle, that record, or behind. -/
theorem placed_split {o : Nat} {k' : MacroIdxKey} {ev' : List HidKeycode}
    (hp : Placed (pre ++ (k, ev) :: post) o k' ev') :
    Placed pre o k' ev' ∨ (o = (encode pre).length ∧ k' = k) ∨
      ∃ o', Placed post o' k' ev' ∧ o = (encode pre).length + (ev.length + 2) + o' := by
  rcases placed_append.mp hp with h | ⟨o₁, h, rfl⟩
  · exact Or.inl h
  · rw [← List.singleton_append] at h
    rcases placed_append.mp h with hmid | ⟨o₂, hpost, rfl⟩
    · obtain ⟨rfl, rfl, -⟩ := placed_singleton.mp hmid
      exact Or.inr (Or.inl ⟨rfl, rfl⟩)
    · exact Or.inr (Or.inr ⟨o₂, hpost, by simp; omega⟩)

theorem encode_split_length : (encode (pre ++ (k, ev) :: post)).length
    = (encode pre).length + (ev.length + 2) + (encode post).length := by
  simp; omega

theorem StoreInv.shiftCase (h : StoreInv hw index mem n (pre ++ (k, ev) :: post) none)
    {offset len : Fin 65536} (ho : offset.val = (encode pre).length)
    (hl : len.val = ev.length + 2) {j : Nat} (hj : j < n) :
    ShiftCase pre post k ev (index j) (shiftEntry offset len (index j)) := by
  by_cases hp : (index j).IsProgram
  · exact .program hp (by rw [shiftEntry, if_neg (by simp [hp])])
  obtain ⟨ev', hplaced⟩ := h.points (index j) ⟨j, hj, rfl⟩ hp (by simp)
  rcases placed_split hplaced with hpre | ⟨hv, hk⟩ | ⟨o', hpost, hv⟩
  · have := hpre.end_le
    refine .before hp ev' hpre ?_
    rw [shiftEntry, if_neg (by rw [Fin.lt_def]; omega)]
  · refine .self hp hk ?_
    rw [shiftEntry, if_neg (by rw [Fin.lt_def]; omega)]
  · have hlt : offset < (index j).val := by rw [Fin.lt_def]; omega
    have hle : len ≤ (index j).val := by rw [Fin.le_def]; omega
    refine .behind hp ev' o' hpost hv (shiftEntry_key ..) ?_
    rw [shiftEntry, if_pos ⟨hp, hlt⟩, Fin.sub_val_of_le hle, hv, hl]
    omega

theorem ShiftCase.key_eq {e e' : MacroIdxEntry} (h : ShiftCase pre post k ev e e') :
    e'.key = e.key := by
  cases h with
  | program _ heq | self _ _ heq | before _ _ _ heq => rw [heq]
  | behind _ _ _ _ _ hk _ => exact hk

/-- The shift does not turn macros into programs. -/
theorem ShiftCase.isProgram_iff {e e' : MacroIdxEntry} (h : ShiftCase pre post k ev e e') :
    e'.IsProgram ↔ e.IsProgram := by
  cases h with
  | program _ heq | self _ _ heq | before _ _ _ heq => rw [heq]
  | behind hp ev' o _ hv _ hv' =>
    refine iff_of_false (fun hp' => hp ?_) hp
    simp only [MacroIdxEntry.IsProgram] at hp' ⊢
    omega

/-- **Deleting a record**: with the bytes behind it moved down, the entries behind it shifted and
    the end offset lowered, the area is the list without the record, and the entry of the deleted
    record is exempt. -/
theorem StoreInv.delete (h : StoreInv hw index mem n (pre ++ (k, ev) :: post) none)
    {index' : MacroIndex} {mem' : Storage} {offset len : Fin 65536}
    (ho : offset.val = (encode pre).length) (hl : len.val = ev.length + 2)
    (hkeys : ∀ j, (index' j).key = (index j).key)
    (hshift : ∀ j, j < n → index' j = shiftEntry offset len (index j))
    (hend : (storageReadShort mem' macrosEndOffset).val
      = (encode pre).length + (encode post).length)
    (htiled : Holds mem' (macros 0) (encode (pre ++ post))) :
    StoreInv hw index' mem' n (pre ++ post) (some k) := by
  have hcase : ∀ {j}, j < n → ShiftCase pre post k ev (index j) (index' j) := fun {j} hj => by
    rw [hshift j hj]; exact h.shiftCase ho hl hj
  have hlen : (encode (pre ++ post)).length = (encode pre).length + (encode post).length := by simp
  -- the record of `k` in the old area is the one in the middle
  have hself : ∀ {o ev'}, Placed (pre ++ (k, ev) :: post) o k ev' → o = (encode pre).length := by
    intro o ev' hp
    obtain ⟨e, hu, hk, hv, -⟩ := h.entry_of_placed hp
    obtain ⟨e₀, hu₀, hk₀, hv₀, -⟩ := h.entry_of_placed ⟨pre, post, rfl, rfl⟩
    rw [← hv, ← hv₀, h.inv.inUse_inj hu hu₀ (hk.trans hk₀.symm)]
  refine ⟨h.inv.of_key_eq hkeys, by rw [hend, hlen], ?_, htiled, ?_, ?_⟩
  · have := h.fits
    rw [encode_split_length] at this
    rw [hlen]
    simp only [macros] at *
    omega
  · rintro e ⟨j, hj, rfl⟩ hp hne
    have hc := hcase hj
    have hpj : ¬ (index j).IsProgram := mt hc.isProgram_iff.mpr hp
    rw [hc.key_eq] at hne ⊢
    cases hc with
    | program hp' _ => exact absurd hp' hpj
    | self _ hk _ => exact absurd (congrArg some hk) hne
    | before _ ev' hpl heq => exact ⟨ev', placed_append.mpr (Or.inl (by rw [heq]; exact hpl))⟩
    | behind _ ev' o hpl _ _ hv' => exact ⟨ev', placed_append.mpr (Or.inr ⟨o, hpl, hv'⟩)⟩
  · intro o k' ev' hp
    have hold : ∃ o', Placed (pre ++ (k, ev) :: post) o' k' ev' ∧ o' ≠ (encode pre).length ∧
        (o = o' ∧ o' < (encode pre).length ∨
          o' = (encode pre).length + (ev.length + 2) + (o - (encode pre).length) ∧
            (encode pre).length ≤ o) := by
      rcases placed_append.mp hp with hpre | ⟨o₁, hpost, rfl⟩
      · have := hpre.end_le
        exact ⟨o, placed_append.mpr (Or.inl hpre), by omega, Or.inl ⟨rfl, by omega⟩⟩
      · refine ⟨(encode pre).length + (ev.length + 2) + o₁, ?_, by omega, Or.inr ⟨by omega, by omega⟩⟩
        rw [List.append_cons]
        exact placed_append.mpr (Or.inr ⟨o₁, hpost, by simp⟩)
    obtain ⟨o', hp', hne, hpos⟩ := hold
    refine ⟨fun heq => hne (hself (Option.some.inj heq ▸ hp')), ?_⟩
    obtain ⟨-, v, hv, j, hj, hej⟩ := h.pointed o' k' ev' hp'
    have hc := hcase hj
    refine ⟨(index' j).val, ?_, j, hj, ?_⟩
    · have hvj : (index j).val.val = o' := by rw [hej, hv]
      have hnp : ¬ (index j).IsProgram := by
        have := hp'.end_le
        have := h.end_lt
        simp only [MacroIdxEntry.IsProgram]
        omega
      cases hc with
      | program hp'' _ => exact absurd hp'' hnp
      | self _ hk _ =>
        rw [hej] at hk
        exact absurd (hself ((show k' = k from hk) ▸ hp')) hne
      | before _ ev'' hpl heq => have := hpl.end_le; rw [heq]; omega
      | behind _ ev'' o₂ hpl hv₂ _ hv' => omega
    · have hk : (index' j).key = k' := by rw [hc.key_eq, hej]
      rw [← hk]

/-- What deleting does on a macro entry, in the numbers the code computes. -/
theorem deleteMacroData_not_program {st : MacroStore} {i : Nat} {offset len endOffset : Fin 65536}
    (hp : ¬ (st.index i).IsProgram) (hoffset : (st.index i).val = offset)
    (hlen : storageReadShort st.mem (macros offset) + Fin.ofNat 65536 macroDataHeaderLen = len)
    (hend : storageReadShort st.mem macrosEndOffset = endOffset) :
    deleteMacroData hw st i =
      if endOffset - (offset + len) ≠ 0 then
        { index := macroIdxIterate hw (macroShiftDownIterator offset len) st.index
          mem := storageWriteShort (memmove st.mem (macros offset) (macros (offset + len).val)
            (endOffset - (offset + len)).val) macrosEndOffset (endOffset - len)
          recordingState := st.recordingState }
      else { st with mem := storageWriteShort st.mem macrosEndOffset (endOffset - len) } := by
  subst hoffset hlen hend
  simp only [deleteMacroData, macroIdxGetData_not_program hp]
  split <;> rfl

/-- The record a macro entry points at, and the numbers deleting it computes; none of them wraps. -/
structure DeletedRecord (st : MacroStore) (i : Nat) (recs pre : List Recorded) (ev : List HidKeycode)
    (post : List Recorded) (offset len endOffset : Fin 65536) : Prop where
  recs_eq : recs = pre ++ ((st.index i).key, ev) :: post
  offset_eq : (st.index i).val = offset
  len_eq : storageReadShort st.mem (macros offset) + Fin.ofNat 65536 macroDataHeaderLen = len
  end_eq : storageReadShort st.mem macrosEndOffset = endOffset
  offset_val : offset.val = (encode pre).length
  len_val : len.val = ev.length + 2
  rest_val : (offset + len).val = (encode pre).length + (ev.length + 2)
  restLen_val : (endOffset - (offset + len)).val = (encode post).length
  newEnd_val : (endOffset - len).val = (encode pre).length + (encode post).length

theorem StoreInv.deletedRecord {st : MacroStore} (h : StoreInv hw st.index st.mem n recs none)
    {i : Nat} (hi : i < n) (hp : ¬ (st.index i).IsProgram) :
    ∃ pre ev post offset len endOffset, DeletedRecord st i recs pre ev post offset len endOffset := by
  obtain ⟨ev, pre, post, rfl, ho⟩ := h.points (st.index i) ⟨i, hi, rfl⟩ hp (by simp)
  have hendlt := h.end_lt
  have hendval := h.end_eq
  rw [encode_split_length] at hendlt hendval
  have hread : storageReadShort st.mem (macros (st.index i).val) = Fin.ofNat 65536 ev.length := by
    have hplaced : Placed (pre ++ ((st.index i).key, ev) :: post) (st.index i).val.val
        (st.index i).key ev := ⟨pre, post, rfl, ho⟩
    exact (Holds.macroEvents (by simpa [macros] using hplaced.holds h.tiled) (by omega)).2
  obtain ⟨offset, hoffset⟩ : ∃ offset, (st.index i).val = offset := ⟨_, rfl⟩
  obtain ⟨len, hlen⟩ : ∃ len,
      Fin.ofNat 65536 ev.length + Fin.ofNat 65536 macroDataHeaderLen = len := ⟨_, rfl⟩
  obtain ⟨endOffset, hendOffset⟩ : ∃ e, storageReadShort st.mem macrosEndOffset = e := ⟨_, rfl⟩
  have ho' : offset.val = (encode pre).length := by rw [← hoffset, ho]
  have hl : len.val = ev.length + 2 := by
    rw [← hlen, Fin.val_add]
    simp only [Fin.val_ofNat, macroDataHeaderLen]
    omega
  rw [hendOffset] at hendval
  have hrest : (offset + len).val = (encode pre).length + (ev.length + 2) := by
    rw [Fin.val_add]; omega
  refine ⟨pre, ev, post, offset, len, endOffset, rfl, hoffset, ?_, hendOffset, ho', hl, hrest, ?_, ?_⟩
  · rw [← hoffset, hread, hlen]
  · rw [Fin.sub_val_of_le (by rw [Fin.le_def]; omega)]; omega
  · rw [Fin.sub_val_of_le (by rw [Fin.le_def]; omega)]; omega

/-- The outcome of deleting the data of entry `i`, whatever kind of entry it is: the entry is
    exempt, its record is gone, and nothing else has changed. -/
theorem deleteMacroData_spec {st : MacroStore} (h : StoreInv hw st.index st.mem n recs none) {i : Nat}
    (hi : i < n) :
    ∃ recs', StoreInv hw (deleteMacroData hw st i).index (deleteMacroData hw st i).mem n recs'
        (some (st.index i).key) ∧
      ((deleteMacroData hw st i).index i).key = (st.index i).key ∧
      SameExcept (st.index i).key st.index n recs (deleteMacroData hw st i).index n recs' := by
  by_cases hp : (st.index i).IsProgram
  · -- no data to delete, and no record of this key either
    rw [deleteMacroData_program hp]
    refine ⟨recs, h.exempt fun ev hmem => ?_, rfl, fun _ _ _ => Iff.rfl, fun _ _ _ => Iff.rfl⟩
    obtain ⟨o, hplaced⟩ := exists_placed hmem
    obtain ⟨e, hu, hk, -, hnp⟩ := h.entry_of_placed hplaced
    rw [h.inv.inUse_inj hu ⟨i, hi, rfl⟩ hk] at hnp
    exact hnp hp
  · obtain ⟨pre, ev, post, offset, len, endOffset, hd⟩ := h.deletedRecord hi hp
    obtain rfl := hd.recs_eq
    have ho' := hd.offset_val
    have hl := hd.len_val
    have hrestLen := hd.restLen_val
    obtain ⟨mem₁, htiled, hdel⟩ : ∃ mem₁, Holds mem₁ (macros 0) (encode (pre ++ post)) ∧
        deleteMacroData hw st i =
          { st with
            index := fun j => if j < n then shiftEntry offset len (st.index j) else st.index j
            mem := storageWriteShort mem₁ macrosEndOffset (endOffset - len) } := by
      have hsplit := h.tiled
      rw [encode_append, encode_cons, ← List.append_assoc] at hsplit
      have hcode := @deleteMacroData_not_program hw st i _ _ _ hp hd.offset_eq hd.len_eq hd.end_eq
      by_cases hz : endOffset - (offset + len) ≠ 0
      · rw [if_pos hz] at hcode
        refine ⟨memmove st.mem (macros offset) (macros (offset + len).val)
          (endOffset - (offset + len)).val, ?_, hcode.trans ?_⟩
        · have hclosed := Holds.close_hole hsplit
          rw [hrestLen, ho', hd.rest_val, encode_append]
          simpa [macros, Nat.add_assoc] using hclosed
        · rw [macroIdxIterate_eq h.inv _ (macroShiftDownIterator_eq offset len)]
      · rw [if_neg hz] at hcode
        have hpost : encode post = [] := by
          rw [not_not, Fin.ext_iff, hrestLen] at hz
          exact List.eq_nil_of_length_eq_zero hz
        refine ⟨st.mem, ?_, hcode.trans ?_⟩
        · rw [encode_append, hpost, List.append_nil]
          exact (holds_append.mp (holds_append.mp hsplit).1).1
        · -- nothing lies behind the record, so the shift would not move an entry
          congr 1
          funext j
          split
          · next hj =>
            cases h.shiftCase ho' hl hj with
            | program _ heq | self _ _ heq | before _ _ _ heq => exact heq.symm
            | behind _ ev' o hpl _ _ _ =>
              have := hpl.end_le
              rw [hpost] at this
              simp at this
          · rfl
    rw [hdel]
    have hkeys : ∀ j, (if j < n then shiftEntry offset len (st.index j) else st.index j).key
        = (st.index j).key := fun j => by split <;> simp
    refine ⟨pre ++ post, h.delete ho' hl hkeys (fun j hj => if_pos hj) ?_ ?_, hkeys i, ?_, ?_⟩
    · rw [storageReadShort_writeShort, hd.newEnd_val]
    · exact htiled.congr fun a ha _ => storageWriteShort_of_outside mem₁ _ (Or.inr ha)
    · intro k' ev' hne
      simp [hne]
    · intro e hpe hne
      have hcase : ∀ {j}, j < n → ShiftCase pre post (st.index i).key ev (st.index j)
          (if j < n then shiftEntry offset len (st.index j) else st.index j) := fun {j} hj => by
        rw [if_pos hj]; exact h.shiftCase ho' hl hj
      constructor
      · rintro ⟨j, hj, rfl⟩
        cases hcase hj with
        | program _ heq | self _ _ heq | before _ _ _ heq => exact ⟨j, hj, heq.symm⟩
        | behind hp' _ _ _ _ _ _ => exact absurd ((hcase hj).isProgram_iff.mp hpe) hp'
      · rintro ⟨j, hj, rfl⟩
        cases hcase hj with
        | program _ heq | self _ _ heq | before _ _ _ heq => exact ⟨j, hj, heq⟩
        | behind hp' _ _ _ _ _ _ => exact absurd hpe hp'

/-! ## The steps of a recording -/

/-- While `k` is being recorded: its entry points at the end of the area, and the events appended
    so far stand behind the place of the length. -/
structure RecordingInv (hw : Hardware) (st : MacroStore) (n : Nat) (recs : List Recorded)
    (k : MacroIdxKey) (appended : List HidKeycode) (entry : Nat) : Prop where
  store : StoreInv hw st.index st.mem n recs (some k)
  entry_lt : entry < n
  entry_key : (st.index entry).key = k
  entry_val : (st.index entry).val.val = (encode recs).length
  state : st.recordingState = some
    { macroData := macros (encode recs).length
      cursor := eventsOf (macros (encode recs).length) + appended.length
      indexEntry := entry }
  written : Holds st.mem (eventsOf (macros (encode recs).length)) appended

/-- The entry a recording starts with is exempt, whether it was there or is new. -/
theorem startEntry_spec {st : MacroStore} (h : StoreInv hw st.index st.mem n recs none) (t : Trigger)
    {entry : Nat} {st' : MacroStore} (hs : startEntry hw st t.key = some (entry, st')) :
    ∃ n' recs', StoreInv hw st'.index st'.mem n' recs' (some t.key) ∧ entry < n' ∧
      (st'.index entry).key = t.key ∧
      SameExcept t.key st.index n recs st'.index n' recs' := by
  rw [startEntry] at hs
  cases hl : macroIdxLookup hw st.index t.key with
  | some i =>
    rw [hl] at hs
    obtain ⟨rfl, rfl⟩ := Prod.mk.inj (Option.some.inj hs)
    obtain ⟨hi, hk⟩ := (macroIdxLookup_eq_some_iff h.inv t.key_head).mp hl
    obtain ⟨recs', hinv, hkey, hsame⟩ := deleteMacroData_spec h hi
    rw [hk] at hinv hkey hsame
    exact ⟨n, recs', hinv, hi, hkey, hsame⟩
  | none =>
    rw [hl] at hs
    have hnew := (macroIdxLookup_eq_none_iff h.inv t.key_head).mp hl
    cases hc : macroIdxCreate hw st.index t.key with
    | none => rw [hc] at hs; exact absurd hs (by simp)
    | some res =>
      obtain ⟨r, index'⟩ := res
      rw [hc] at hs
      obtain ⟨rfl, rfl⟩ := Prod.mk.inj (Option.some.inj hs)
      obtain ⟨hr, hkey, huse⟩ := create_inUse h.inv hnew hc
      refine ⟨n + 1, recs, h.create hnew hc, hr, hkey, fun _ _ _ => Iff.rfl, fun e _ hne => ?_⟩
      rw [huse]
      exact or_iff_left fun he => hne (by rw [he, hkey])

/-- Setting the exempt entry's value is seen by no other key. -/
theorem inUse_setData {i : Nat} {k : MacroIdxKey} (hk : (index i).key = k) (d : MacroIdxEntryData)
    {e : MacroIdxEntry} (hne : e.key ≠ k) :
    InUse (macroIdxSetData index i d) n e ↔ InUse index n e := by
  refine exists_congr fun j => and_congr_right fun _ => ?_
  by_cases hj : j = i
  · subst hj
    refine iff_of_false (fun he => hne ?_) fun he => hne ?_
    · rw [← he, macroIdxSetData_key, hk]
    · rw [← he, hk]
  · rw [macroIdxSetData_of_ne _ _ hj]

theorem macrosStartMacro_spec {st : MacroStore} (h : StoreInv hw st.index st.mem n recs none)
    (t : Trigger) (hs : (macrosStartMacro hw st t.key).1 = true) :
    ∃ n' recs' entry, RecordingInv hw (macrosStartMacro hw st t.key).2 n' recs' t.key [] entry ∧
      SameExcept t.key st.index n recs (macrosStartMacro hw st t.key).2.index n' recs' := by
  rw [macrosStartMacro] at hs ⊢
  cases he : startEntry hw st t.key with
  | none => rw [he] at hs; exact absurd hs (by simp)
  | some res =>
    obtain ⟨entry, st'⟩ := res
    obtain ⟨n', recs', hinv, hlt, hkey, hsame⟩ := startEntry_spec h t he
    have hend := hinv.end_eq
    refine ⟨n', recs', entry, ⟨hinv.setData hkey _, hlt, ?_, ?_, ?_, holds_nil⟩, ?_⟩
    · exact (macroIdxSetData_key ..).trans hkey
    · simp only [macroIdxSetData, Function.update_self, packData, hend]
    · simp only [hend, List.length_nil, Nat.add_zero]
    · exact hsame.trans ⟨fun _ _ _ => Iff.rfl, fun e _ hne => inUse_setData hkey _ hne⟩

/-- A recording that does not start leaves both memories alone. -/
theorem macrosStartMacro_false {st : MacroStore} {key : MacroIdxKey}
    (hs : (macrosStartMacro hw st key).1 = false) :
    (macrosStartMacro hw st key).2 = { st with recordingState := none } := by
  rw [macrosStartMacro] at hs ⊢
  cases he : startEntry hw st key with
  | none => rfl
  | some res => rw [he] at hs; exact absurd hs (by simp)

variable {st : MacroStore} {k : MacroIdxKey} {appended : List HidKeycode} {entry : Nat}

/-- Appending writes behind the area, and behind what was appended before. -/
theorem RecordingInv.append (h : RecordingInv hw st n recs k appended entry) (event : HidKeycode) :
    RecordingInv hw (macrosAppend st event) n recs k (appended ++ [event]) entry := by
  simp only [macrosAppend, h.state]
  have hbehind : ∀ a, a < eventsOf (macros (encode recs).length) + appended.length →
      writeBytes st.mem (eventsOf (macros (encode recs).length) + appended.length) [event] a
        = st.mem a := fun a ha => writeBytes_of_outside _ _ (Or.inl ha)
  refine ⟨h.store.of_agree fun a ha => hbehind a ?_, h.entry_lt, h.entry_key, h.entry_val, ?_, ?_⟩
  · simp only [eventsOf, macroDataHeaderLen]; omega
  · simp [Nat.add_assoc]
  · rw [holds_append]
    exact ⟨h.written.congr fun a _ ha => hbehind a ha, writeBytes_holds _ _ _⟩

theorem RecordingInv.appendAll (h : RecordingInv hw st n recs k appended entry)
    (events : List HidKeycode) :
    RecordingInv hw (events.foldl macrosAppend st) n recs k (appended ++ events) entry := by
  induction events generalizing st appended with
  | nil => simpa using h
  | cons event events ih =>
    have := ih (h.append event)
    rwa [List.append_assoc] at this

theorem appendAll_index (events : List HidKeycode) (st : MacroStore) :
    (events.foldl macrosAppend st).index = st.index := by
  induction events generalizing st with
  | nil => rfl
  | cons event events ih =>
    rw [List.foldl_cons, ih, macrosAppend]
    split <;> rfl

/-- Aborting gives the entry back; nothing else is to be undone. -/
theorem RecordingInv.abort (h : RecordingInv hw st n recs k appended entry) :
    StoreInv hw (macrosAbortMacro hw st).index (macrosAbortMacro hw st).mem (n - 1) recs none ∧
      SameExcept k st.index n recs (macrosAbortMacro hw st).index (n - 1) recs ∧
      ∀ i, i < n - 1 → ((macrosAbortMacro hw st).index i).key ≠ k := by
  simp only [macrosAbortMacro, h.state]
  have huse := fun e => remove_inUse h.store.inv h.entry_lt e
  rw [h.entry_key] at huse
  refine ⟨h.store.remove h.entry_lt h.entry_key,
    ⟨fun _ _ _ => Iff.rfl, fun e _ hne => (huse e).trans (and_iff_left hne)⟩, fun i hi => ?_⟩
  exact ((huse _).mp ⟨i, hi, rfl⟩).2

/-- An empty commit is an abort. -/
theorem RecordingInv.commit_nil (h : RecordingInv hw st n recs k [] entry) :
    macrosCommitMacro hw st = macrosAbortMacro hw st := by
  simp only [macrosCommitMacro, macrosAbortMacro, h.state, List.length_nil, Nat.add_zero,
    Nat.sub_self]
  rfl

/-- A commit with events turns what was written behind the area into its last record. -/
theorem RecordingInv.commit (h : RecordingInv hw st n recs k appended entry)
    (hne : appended ≠ [])
    (hfit : eventsOf (macros (encode recs).length) + appended.length ≤ hw.macrosSize) :
    StoreInv hw (macrosCommitMacro hw st).index (macrosCommitMacro hw st).mem n
        (recs ++ [(k, appended)]) none ∧
      SameExcept k st.index n recs (macrosCommitMacro hw st).index n (recs ++ [(k, appended)]) := by
  have hsize := hw.size_le
  have hpos : 0 < appended.length := List.length_pos_iff.mpr hne
  simp only [eventsOf, macros, macroDataHeaderLen] at hfit
  obtain ⟨len, hlen⟩ : ∃ len : Fin 65536, Fin.ofNat 65536 appended.length = len := ⟨_, rfl⟩
  have hlenval : len.val = appended.length := by
    rw [← hlen, Fin.val_ofNat]; omega
  have hlen0 : len ≠ 0 := by
    rw [ne_eq, Fin.ext_iff, Fin.val_zero]; omega
  obtain ⟨mem₁, hmem₁⟩ : ∃ mem₁, storageWriteShort st.mem (macros (encode recs).length) len = mem₁ :=
    ⟨_, rfl⟩
  have hframe : ∀ a, a < macros (encode recs).length ∨ macros (encode recs).length + 2 ≤ a →
      mem₁ a = st.mem a := fun a ha => hmem₁ ▸ storageWriteShort_of_outside st.mem len ha
  have hcode : macrosCommitMacro hw st =
      { index := st.index
        mem := storageWriteShort mem₁ macrosEndOffset (storageReadShort mem₁ macrosEndOffset
          + (len + Fin.ofNat 65536 macroDataHeaderLen))
        recordingState := none } := by
    simp only [macrosCommitMacro, h.state, Nat.add_sub_cancel_left, hlen, if_neg hlen0, hmem₁]
  have hend₁ : (storageReadShort mem₁ macrosEndOffset).val = (encode recs).length := by
    rw [← h.store.end_eq]
    congr 1
    exact storageReadShort_congr
      (hframe _ (Or.inl (by simp only [macros, macrosEndOffset]; omega)))
      (hframe _ (Or.inl (by simp only [macros, macrosEndOffset]; omega)))
  have hendFrame : ∀ v a, macros 0 ≤ a → storageWriteShort mem₁ macrosEndOffset v a = mem₁ a :=
    fun v a ha => storageWriteShort_of_outside mem₁ v (Or.inr ha)
  have hentry : InUse st.index n ⟨k, (st.index entry).val⟩ :=
    ⟨entry, h.entry_lt, by rw [← h.entry_key]⟩
  rw [hcode]
  refine ⟨h.store.commit hentry h.entry_val ?_ ?_ ?_ ?_,
    ?_, fun _ _ _ => Iff.rfl⟩
  · simp only [macros]; omega
  · rw [storageReadShort_writeShort, Fin.val_add, Fin.val_add, hend₁, hlenval]
    simp only [Fin.val_ofNat, macroDataHeaderLen]
    omega
  · have hrec : Holds mem₁ (macros (encode recs).length) (record appended) := by
      rw [record, hlen, holds_append]
      refine ⟨hmem₁ ▸ writeBytes_holds st.mem _ _, h.written.congr fun a ha _ => hframe a (Or.inr ha)⟩
    refine hrec.congr fun a ha _ => hendFrame _ a ?_
    simp only [macros] at *
    omega
  · exact fun a h1 h2 => (hendFrame _ a h1).trans (hframe a (Or.inl h2))
  · intro k' ev hk
    simp [hk]

/-! ## Whole recordings -/

/-- A complete recording: the trigger as pressed, the events, and how it ends. -/
structure Recording where
  trigger : KeyBuffer
  events : List HidKeycode
  commit : Bool

/-- The key of the recorded trigger. -/
abbrev Recording.key (r : Recording) : MacroIdxKey := r.trigger.key

/-- The end of a recording. -/
def Recording.finish (hw : Hardware) (r : Recording) (st : MacroStore) : MacroStore :=
  if r.commit then macrosCommitMacro hw st else macrosAbortMacro hw st

/-- Start, append, then commit or abort; nothing when the start is refused. -/
def Recording.run (hw : Hardware) (st : MacroStore) (r : Recording) : MacroStore :=
  match macrosStartMacro hw st r.key with
  | (false, st) => st
  | (true, st) => r.finish hw (r.events.foldl macrosAppend st)

/-- The events fit behind the end offset that the start of the recording leaves. -/
def Recording.Fits (hw : Hardware) (st : MacroStore) (r : Recording) : Prop :=
  eventsOf (macros (storageReadShort (macrosStartMacro hw st r.key).2.mem macrosEndOffset))
    + r.events.length ≤ hw.macrosSize

/-- What the recorded trigger stands for afterwards. -/
def Recording.contents (r : Recording) : Option TriggerContents :=
  if r.commit = true ∧ r.events ≠ [] then some (.events r.events) else none

theorem Recording.finish_spec {r : Recording} {t : Trigger}
    (h : RecordingInv hw st n recs t.key r.events entry)
    (hfit : r.events ≠ [] →
      eventsOf (macros (encode recs).length) + r.events.length ≤ hw.macrosSize) :
    ∃ n' recs', StoreInv hw (r.finish hw st).index (r.finish hw st).mem n' recs' none ∧
      SameExcept t.key st.index n recs (r.finish hw st).index n' recs' ∧
      triggerContents hw (r.finish hw st) t.key = r.contents := by
  by_cases hc : r.commit = true ∧ r.events ≠ []
  · obtain ⟨hinv, hsame⟩ := h.commit hc.2 (hfit hc.2)
    have hfin : r.finish hw st = macrosCommitMacro hw st := by rw [Recording.finish, if_pos hc.1]
    rw [hfin, Recording.contents, if_pos hc]
    refine ⟨n, _, hinv, hsame, (hinv.contents_iff t (by simp) _).mpr (Or.inr ?_)⟩
    exact ⟨r.events, by simp, rfl⟩
  · -- an empty commit and an abort both remove the entry
    have hfin : r.finish hw st = macrosAbortMacro hw st := by
      rw [Recording.finish]
      split
      · next hcommit =>
        have hnil : r.events = [] := not_not.mp fun hne => hc ⟨hcommit, hne⟩
        rw [hnil] at h
        exact h.commit_nil
      · rfl
    obtain ⟨hinv, hsame, hgone⟩ := h.abort
    rw [hfin, Recording.contents, if_neg hc]
    refine ⟨n - 1, recs, hinv, hsame, ?_⟩
    rw [triggerContents, (macroIdxLookup_eq_none_iff hinv.inv t.key_head).mpr hgone]
    rfl

/-- **One recording keeps the store invariant**, and touches only its own trigger, which then
    stands for the recorded events.  Only a recording that starts and has events needs room. -/
theorem Recording.run_spec (h : StoreInv hw st.index st.mem n recs none) (r : Recording)
    (hfit : (macrosStartMacro hw st r.key).1 = true → r.events ≠ [] → r.Fits hw st) :
    ∃ n' recs', StoreInv hw (r.run hw st).index (r.run hw st).mem n' recs' none ∧
      SameExcept r.key st.index n recs (r.run hw st).index n' recs' ∧
      ((macrosStartMacro hw st r.key).1 = true →
        triggerContents hw (r.run hw st) r.key = r.contents) := by
  have hkey : r.key = r.trigger.trigger.key := r.trigger.key_eq
  rw [Recording.Fits] at hfit
  rw [Recording.run]
  cases hs : macrosStartMacro hw st r.key with
  | mk started st₁ =>
    cases started with
    | false =>
      have hst := @macrosStartMacro_false hw st r.key (congrArg Prod.fst hs)
      rw [hs] at hst
      obtain rfl : st₁ = { st with recordingState := none } := hst
      exact ⟨n, recs, h, ⟨fun _ _ _ => Iff.rfl, fun _ _ _ => Iff.rfl⟩, fun hf => absurd hf (by simp)⟩
    | true =>
      rw [hs] at hfit
      rw [hkey] at hs ⊢
      have hroom := hfit rfl
      obtain ⟨n₁, recs₁, entry, hrec, hsame⟩ :=
        macrosStartMacro_spec h r.trigger.trigger (congrArg Prod.fst hs)
      rw [hs] at hrec hsame
      have hall := hrec.appendAll r.events
      rw [List.nil_append] at hall
      rw [hrec.store.end_eq] at hroom
      obtain ⟨n₂, recs₂, hinv, hsame₂, hcont⟩ := Recording.finish_spec hall hroom
      rw [appendAll_index] at hsame₂
      exact ⟨n₂, recs₂, hinv, hsame.trans hsame₂, fun _ => hcont⟩

/-! ## The reset store -/

/-- The record a default macro gets. -/
def defRecorded (d : MacroDefInfo) : Recorded := ((defEntry 0 d).key, d.hkeys)

theorem encode_defRecorded_length (infos : List MacroDefInfo) :
    (encode (infos.map defRecorded)).length
      = infos.length * (macroDataHeaderLen + defHkeysLen) := by
  induction infos with
  | nil => rfl
  | cons d infos ih =>
    rw [List.map_cons, encode_cons, List.length_append, ih, record_length, List.length_cons]
    simp only [defRecorded, d.hkeys_length, macroDataHeaderLen, defHkeysLen]
    omega

/-- The reset writes the records of the table one behind the other. -/
theorem resetMacroRounds_holds (mem : Storage) (infos : List MacroDefInfo) :
    Holds (infos.zipIdx.foldl resetMacroRound mem) (macros 0) (encode (infos.map defRecorded)) := by
  induction infos using List.reverseRecOn with
  | nil => exact holds_nil
  | append_singleton infos d ih =>
    rw [List.zipIdx_append, List.foldl_append, List.map_append, encode_append, holds_append,
      encode_defRecorded_length]
    have hround : ∀ m : Storage, ([d].zipIdx infos.length).foldl resetMacroRound m
        = writeBytes m (macros (infos.length * (macroDataHeaderLen + defHkeysLen)))
          (record d.hkeys) := by
      intro m
      simp only [List.zipIdx_cons, List.zipIdx_nil, List.foldl_cons, List.foldl_nil,
        resetMacroRound, record, d.hkeys_length]
    rw [Nat.zero_add, hround]
    refine ⟨ih.congr fun a _ ha => writeBytes_of_outside _ _ (Or.inl ?_), ?_⟩
    · rw [encode_defRecorded_length] at ha
      simp only [macros] at *
      omega
    · have hmap : encode ([d].map defRecorded) = record d.hkeys := by
        simp [defRecorded]
      rw [hmap, show macros 0 + infos.length * (macroDataHeaderLen + defHkeysLen)
        = macros (infos.length * (macroDataHeaderLen + defHkeysLen)) from rfl]
      exact writeBytes_holds _ _ _

theorem placed_defRecorded_iff {infos : List MacroDefInfo} {o : Nat} {k : MacroIdxKey}
    {ev : List HidKeycode} :
    Placed (infos.map defRecorded) o k ev ↔
      ∃ (idx : Nat) (d : MacroDefInfo), infos[idx]? = some d ∧
        o = idx * (macroDataHeaderLen + defHkeysLen) ∧ k = (defEntry idx d).key ∧ ev = d.hkeys := by
  constructor
  · rintro ⟨pre, post, heq, rfl⟩
    obtain ⟨front, rest, rfl, rfl, hrest⟩ := List.map_eq_append_iff.mp heq
    obtain ⟨d, back, rfl, hd, rfl⟩ := List.map_eq_cons_iff.mp hrest
    obtain ⟨rfl, rfl⟩ := Prod.mk.inj hd
    exact ⟨front.length, d, by simp, encode_defRecorded_length front, rfl, rfl⟩
  · rintro ⟨idx, d, hget, rfl, rfl, rfl⟩
    obtain ⟨hidx, rfl⟩ := List.getElem?_eq_some_iff.mp hget
    refine ⟨(infos.take idx).map defRecorded, (infos.drop (idx + 1)).map defRecorded, ?_, ?_⟩
    · conv_lhs => rw [← List.take_append_drop idx infos, List.drop_eq_getElem_cons hidx]
      rw [List.map_append, List.map_cons]
      rfl
    · rw [encode_defRecorded_length, List.length_take, Nat.min_eq_left hidx.le]

/-- **A reset store satisfies the invariant**: its records are the default macros. -/
theorem reset_storeInv (hw : Hardware) (st : MacroStore) :
    ∃ n, StoreInv hw (st.reset hw).index (st.reset hw).mem n (hw.macroDefInfos.map defRecorded)
      none := by
  obtain ⟨n, hinv, huse, -⟩ := reset_inUse hw st.index
  have hfit := hw.defs_fit_macros
  have hsize := hw.size_le
  have hlen := encode_defRecorded_length hw.macroDefInfos
  have hval : ∀ {idx : Nat} {d : MacroDefInfo}, hw.macroDefInfos[idx]? = some d →
      (defEntry idx d).val.val = idx * (macroDataHeaderLen + defHkeysLen) := by
    intro idx d hget
    obtain ⟨hidx, -⟩ := List.getElem?_eq_some_iff.mp hget
    simp only [defEntry, Fin.val_ofNat, macroDataHeaderLen, defHkeysLen] at *
    omega
  refine ⟨n, hinv, ?_, by rw [hlen]; exact hfit, ?_, ?_, ?_⟩
  · rw [hlen, MacroStore.reset, macrosResetDefaults, storageReadShort_writeShort, Fin.val_ofNat]
    simp only [macroDataHeaderLen, defHkeysLen] at *
    omega
  · exact (resetMacroRounds_holds st.mem hw.macroDefInfos).congr
      fun a ha _ => storageWriteShort_of_outside _ _ (Or.inr ha)
  · intro e hu _ _
    obtain ⟨idx, d, hget, rfl⟩ := (huse e).mp hu
    exact ⟨d.hkeys, placed_defRecorded_iff.mpr ⟨idx, d, hget, hval hget, rfl, rfl⟩⟩
  · intro o k ev hp
    obtain ⟨idx, d, hget, rfl, rfl, rfl⟩ := placed_defRecorded_iff.mp hp
    exact ⟨by simp, (defEntry idx d).val, hval hget, (huse _).mpr ⟨idx, d, hget, rfl⟩⟩

/-! ## Histories of recordings -/

/-- The store satisfies the invariant, for some list of records, and no two macro entries share a
    record. -/
def StoreOk (hw : Hardware) (st : MacroStore) : Prop :=
  ∃ n recs, StoreInv hw st.index st.mem n recs none ∧
    ∀ e e', InUse st.index n e → InUse st.index n e' → ¬ e.IsProgram → ¬ e'.IsProgram →
      e.val = e'.val → e = e'

theorem StoreInv.storeOk (h : StoreInv hw st.index st.mem n recs none) : StoreOk hw st := by
  refine ⟨n, recs, h, fun e e' hu hu' hp hp' hv => h.inv.inUse_inj hu hu' ?_⟩
  obtain ⟨ev, hpl⟩ := h.points e hu hp (by simp)
  obtain ⟨ev', hpl'⟩ := h.points e' hu' hp' (by simp)
  exact (hpl.unique (hv ▸ hpl')).1

/-- The stores that complete recordings, of events that fit, lead to from `st`. -/
inductive Recordings (hw : Hardware) (st : MacroStore) : MacroStore → Prop
  | nil : Recordings hw st st
  | snoc {st' : MacroStore} (h : Recordings hw st st') (r : Recording) (hfit : r.Fits hw st') :
    Recordings hw st (r.run hw st')

theorem Recordings.storeOk {st st' : MacroStore} (h : Recordings hw st st') (hok : StoreOk hw st) :
    StoreOk hw st' := by
  induction h with
  | nil => exact hok
  | snoc _ r hfit ih =>
    obtain ⟨n, recs, hinv, -⟩ := ih
    obtain ⟨n', recs', hinv', -⟩ := r.run_spec hinv fun _ _ => hfit
    exact hinv'.storeOk

/-- **The macro store invariant holds after every history of recordings.**  A reset store
    satisfies it.  From any store that satisfies it, whatever macros and programs its index holds,
    complete recordings on any triggers lead to stores that satisfy it again: the records tile the
    area up to the end offset and the macro entries point at their starts one for one.  And each
    recording leaves every other trigger with exactly the events or the program it had. -/
theorem recordings_keep_store (hw : Hardware) :
    (∀ st : MacroStore, StoreOk hw (st.reset hw)) ∧
    ∀ st st' : MacroStore, StoreOk hw st → Recordings hw st st' →
      StoreOk hw st' ∧
      ∀ r : Recording, r.Fits hw st' → ∀ t : Trigger, t.set ≠ r.trigger.trigger.set →
        triggerContents hw (r.run hw st') t.key = triggerContents hw st' t.key := by
  refine ⟨fun st => ?_, fun st st' hok hrun => ⟨hrun.storeOk hok, fun r hfit t hne => ?_⟩⟩
  · obtain ⟨n, hinv⟩ := reset_storeInv hw st
    exact hinv.storeOk
  · obtain ⟨n, recs, hinv, -⟩ := hrun.storeOk hok
    obtain ⟨n', recs', hinv', hsame, -⟩ := r.run_spec hinv fun _ _ => hfit
    refine hsame.contents_eq hinv hinv' fun heq => hne (Trigger.key_inj.mp ?_)
    rw [heq, Recording.key, r.trigger.key_eq]

end KeyboardFirmware
