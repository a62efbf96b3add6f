/-
  The macro store invariant: records in the storage against entries in the index.

  `encode recs` is what the macro area holds for a list of recorded macros, one length-prefixed
  record after the other, and `Placed` says at which offset a record starts.  `StoreInv` ties the
  two memories together: the area is exactly `encode recs`, and the macro entries in use and the
  placed records are the same pairs of key and offset.  While a macro is being recorded its own
  entry is exempt (`skip`): it points at the end of the area, where no record is yet.
-/
import KeyboardFirmware.Macro.IndexHistory
import KeyboardFirmware.Macro.Macro
import Mathlib.Data.Nat.Bitwise

namespace KeyboardFirmware

open Lib

variable {hw : Hardware} {index : MacroIndex} {mem : Storage} {n : Nat}

/-! ## Shorts in storage -/

@[simp] theorem shortBytes_length (v : Fin 65536) : (shortBytes v).length = 2 := rfl

/-- A short reads back. -/
theorem storageReadShort_of_holds {a : Nat} {v : Fin 65536} (h : Holds mem a (shortBytes v)) :
    storageReadShort mem a = v := by
  have h0 : mem a = Fin.ofNat 256 v.val := h 0 (by simp)
  have h1 : mem (a + 1) = Fin.ofNat 256 (v.val / 256) := h 1 (by simp)
  apply Fin.ext
  simp only [storageReadShort, h0, h1, Fin.val_ofNat]
  omega

theorem storageReadShort_congr {mem' : Storage} {a : Nat} (h0 : mem' a = mem a)
    (h1 : mem' (a + 1) = mem (a + 1)) : storageReadShort mem' a = storageReadShort mem a := by
  apply Fin.ext
  simp only [storageReadShort, h0, h1]

@[simp] theorem storageReadShort_writeShort (mem : Storage) (a : Nat) (v : Fin 65536) :
    storageReadShort (storageWriteShort mem a v) a = v :=
  storageReadShort_of_holds (writeBytes_holds mem a (shortBytes v))

theorem storageWriteShort_of_outside (mem : Storage) {a : Nat} (v : Fin 65536) {i : Nat}
    (h : i < a ∨ a + 2 ≤ i) : storageWriteShort mem a v i = mem i :=
  writeBytes_of_outside mem (shortBytes v) h

/-! ## Values of index entries -/

/-- An entry whose value has its top bit set names a program, any other one a macro. -/
def MacroIdxEntry.IsProgram (e : MacroIdxEntry) : Prop := 0x8000 ≤ e.val.val

instance (e : MacroIdxEntry) : Decidable e.IsProgram :=
  inferInstanceAs (Decidable (0x8000 ≤ e.val.val))

theorem topBit_ne_zero_iff (v : Fin 65536) : v &&& 0x8000 ≠ 0 ↔ 0x8000 ≤ v.val := by
  have hv := v.isLt
  have hval : (v &&& 0x8000).val = (v.val / 2 ^ 15 % 2 == 1).toNat * 2 ^ 15 := by
    rw [Fin.and_val]
    exact (Nat.and_two_pow v.val 15).trans (by rw [Nat.testBit_eq_decide_div_mod_eq]; rfl)
  rw [ne_eq, Fin.ext_iff, hval]
  by_cases hd : v.val / 2 ^ 15 % 2 = 1
  · rw [beq_iff_eq.mpr hd]
    simp only [Bool.toNat_true, Fin.val_zero]
    omega
  · rw [beq_eq_false_iff_ne.mpr hd]
    simp only [Bool.toNat_false, Fin.val_zero]
    omega

theorem macroIdxGetData_type (index : MacroIndex) (i : Nat) :
    (macroIdxGetData index i).type = .programEntry ↔ (index i).IsProgram := by
  rw [MacroIdxEntry.IsProgram, ← topBit_ne_zero_iff]
  simp only [macroIdxGetData]
  split <;> simp_all

theorem macroIdxGetData_not_program {i : Nat} (h : ¬ (index i).IsProgram) :
    macroIdxGetData index i = ⟨.macroEntry, (index i).val⟩ := by
  have hv : (index i).val.val < 2 ^ 15 := Nat.lt_of_not_le h
  have hand : (index i).val &&& 0x7fff = (index i).val := by
    apply Fin.ext
    rw [Fin.and_val]
    exact (Nat.and_two_pow_sub_one_eq_mod _ 15).trans (Nat.mod_eq_of_lt hv)
  have htype : ¬ ((index i).val &&& 0x8000 ≠ 0) := mt (topBit_ne_zero_iff _).mp h
  simp only [macroIdxGetData, if_neg htype, hand]

/-! ## Records -/

/-- The record of a macro: the length of its events, then the events. -/
def record (ev : List HidKeycode) : List Byte := shortBytes (Fin.ofNat 65536 ev.length) ++ ev

@[simp] theorem record_length (ev : List HidKeycode) : (record ev).length = ev.length + 2 := by
  rw [record, List.length_append, shortBytes_length]; omega

/-- A recorded macro: the key of its trigger and its events. -/
abbrev Recorded := MacroIdxKey × List HidKeycode

/-- The macro area: the records one after the other. -/
def encode (recs : List Recorded) : List Byte := recs.flatMap fun r => record r.2

@[simp] theorem encode_nil : encode [] = [] := rfl

@[simp] theorem encode_append (xs ys : List Recorded) : encode (xs ++ ys) = encode xs ++ encode ys :=
  List.flatMap_append

@[simp] theorem encode_cons (r : Recorded) (recs : List Recorded) :
    encode (r :: recs) = record r.2 ++ encode recs := List.flatMap_cons

/-- The record of `ev`, recorded for `k`, starts at offset `o` of the area. -/
def Placed (recs : List Recorded) (o : Nat) (k : MacroIdxKey) (ev : List HidKeycode) : Prop :=
  ∃ pre post, recs = pre ++ (k, ev) :: post ∧ (encode pre).length = o

variable {recs xs ys : List Recorded} {o : Nat} {k : MacroIdxKey} {ev : List HidKeycode}

theorem placed_append :
    Placed (xs ++ ys) o k ev ↔
      Placed xs o k ev ∨ ∃ o', Placed ys o' k ev ∧ o = (encode xs).length + o' := by
  constructor
  · rintro ⟨pre, post, heq, rfl⟩
    rcases List.append_eq_append_iff.mp heq with ⟨m, rfl, hm⟩ | ⟨m, rfl, hm⟩
    · exact Or.inr ⟨(encode m).length, ⟨m, post, hm, rfl⟩, by simp⟩
    · cases m with
      | nil => exact Or.inr ⟨0, ⟨[], post, by simpa using hm.symm, rfl⟩, by simp⟩
      | cons r m =>
        obtain ⟨rfl, -⟩ := List.cons.inj hm
        exact Or.inl ⟨pre, m, rfl, rfl⟩
  · rintro (⟨pre, post, rfl, rfl⟩ | ⟨o', ⟨pre, post, rfl, rfl⟩, rfl⟩)
    · exact ⟨pre, post ++ ys, by simp, rfl⟩
    · exact ⟨xs ++ pre, post, by simp, by simp⟩

theorem placed_singleton {k' : MacroIdxKey} {ev' : List HidKeycode} :
    Placed [(k', ev')] o k ev ↔ o = 0 ∧ k = k' ∧ ev = ev' := by
  constructor
  · rintro ⟨pre, post, heq, rfl⟩
    cases pre with
    | nil =>
      obtain ⟨hr, -⟩ := List.cons.inj heq
      obtain ⟨rfl, rfl⟩ := Prod.mk.inj hr
      exact ⟨rfl, rfl, rfl⟩
    | cons r pre => simp at heq
  · rintro ⟨rfl, rfl, rfl⟩
    exact ⟨[], [], rfl, rfl⟩

/-- A record lies inside the area. -/
theorem Placed.end_le (h : Placed recs o k ev) : o + ev.length + 2 ≤ (encode recs).length := by
  obtain ⟨pre, post, rfl, rfl⟩ := h
  simp; omega

theorem Placed.holds {a : Nat} (h : Placed recs o k ev) (hm : Holds mem a (encode recs)) :
    Holds mem (a + o) (record ev) := by
  obtain ⟨pre, post, rfl, rfl⟩ := h
  rw [encode_append, encode_cons, holds_append] at hm
  exact (holds_append.mp hm.2).1

/-- At one offset there is one record: records are not empty. -/
theorem Placed.unique {k' : MacroIdxKey} {ev' : List HidKeycode} (h : Placed recs o k ev)
    (h' : Placed recs o k' ev') : k = k' ∧ ev = ev' := by
  obtain ⟨pre, post, rfl, rfl⟩ := h
  rcases placed_append.mp h' with hpre | ⟨o₁, hrest, ho⟩
  · have := hpre.end_le; omega
  · obtain rfl : o₁ = 0 := by omega
    rw [← List.singleton_append] at hrest
    rcases placed_append.mp hrest with hmid | ⟨o₂, -, ho₂⟩
    · obtain ⟨-, rfl, rfl⟩ := placed_singleton.mp hmid
      exact ⟨rfl, rfl⟩
    · simp at ho₂; omega

theorem Placed.mem_recs (h : Placed recs o k ev) : (k, ev) ∈ recs := by
  obtain ⟨pre, post, rfl, -⟩ := h
  simp

theorem exists_placed (h : (k, ev) ∈ recs) : ∃ o, Placed recs o k ev := by
  obtain ⟨pre, post, rfl⟩ := List.append_of_mem h
  exact ⟨_, pre, post, rfl, rfl⟩

/-- A stored record reads back as its events. -/
theorem Holds.macroEvents (h : Holds mem (macros o) (record ev)) (hlen : ev.length < 65536) :
    macroEvents mem o = ev ∧ storageReadShort mem (macros o) = Fin.ofNat 65536 ev.length := by
  obtain ⟨hs, he⟩ := holds_append.mp h
  have hread := storageReadShort_of_holds hs
  refine ⟨?_, hread⟩
  rw [KeyboardFirmware.macroEvents, hread, Fin.val_ofNat, Nat.mod_eq_of_lt hlen]
  exact he.readBytes_eq

/-! ## The invariant -/

/-- The macro area is exactly the records of `recs`, up to the stored end offset; and the macro
    entries in use, the one for `skip` apart, are one for one the records: same key, and the value
    is the offset. -/
structure StoreInv (hw : Hardware) (index : MacroIndex) (mem : Storage) (n : Nat)
    (recs : List Recorded) (skip : Option MacroIdxKey) : Prop where
  inv : IndexInv hw index n
  end_eq : (storageReadShort mem macrosEndOffset).val = (encode recs).length
  fits : macros (encode recs).length ≤ hw.macrosSize
  tiled : Holds mem (macros 0) (encode recs)
  points : ∀ e, InUse index n e → ¬ e.IsProgram → some e.key ≠ skip →
    ∃ ev, Placed recs e.val.val e.key ev
  pointed : ∀ o k ev, Placed recs o k ev →
    some k ≠ skip ∧ ∃ v : Fin 65536, v.val = o ∧ InUse index n ⟨k, v⟩

theorem IndexInv.inUse_inj (h : IndexInv hw index n) {e e' : MacroIdxEntry} (he : InUse index n e)
    (he' : InUse index n e') (hk : e.key = e'.key) : e = e' := by
  obtain ⟨i, hi, rfl⟩ := he
  obtain ⟨j, hj, rfl⟩ := he'
  rw [h.key_injOn hi hj hk]

variable {skip : Option MacroIdxKey}

/-- The area ends below the program bit. -/
theorem StoreInv.end_lt (h : StoreInv hw index mem n recs skip) : (encode recs).length < 0x7fff := by
  have := h.fits
  have := hw.size_le
  simp only [macros] at *
  omega

/-- Every record is where its entry says, and its entry is a macro entry. -/
theorem StoreInv.entry_of_placed (h : StoreInv hw index mem n recs skip) (hp : Placed recs o k ev) :
    ∃ e, InUse index n e ∧ e.key = k ∧ e.val.val = o ∧ ¬ e.IsProgram := by
  obtain ⟨-, v, hv, hu⟩ := h.pointed o k ev hp
  refine ⟨⟨k, v⟩, hu, rfl, hv, ?_⟩
  have := hp.end_le
  have := h.end_lt
  simp only [MacroIdxEntry.IsProgram, hv]
  omega

theorem contentsAt_eq_iff (st : MacroStore) (i : Nat) (c : TriggerContents) :
    (match (macroIdxGetData st.index i).type with
      | .programEntry => TriggerContents.program (macroIdxGetData st.index i).data
      | .macroEntry => .events (macroEvents st.mem (macroIdxGetData st.index i).data)) = c ↔
      ((st.index i).IsProgram ∧ c = .program ((st.index i).val &&& 0x7fff) ∨
        ¬ (st.index i).IsProgram ∧ c = .events (macroEvents st.mem (st.index i).val)) := by
  by_cases hp : (st.index i).IsProgram
  · rw [(macroIdxGetData_type st.index i).mpr hp]
    simp only [hp, true_and, not_true_eq_false, false_and, or_false]
    exact eq_comm
  · rw [macroIdxGetData_not_program hp]
    simp only [hp, false_and, not_false_eq_true, true_and, false_or]
    exact eq_comm

theorem triggerContents_eq_some_iff {st : MacroStore} (h : IndexInv hw st.index n) (t : Trigger)
    (c : TriggerContents) :
    triggerContents hw st t.key = some c ↔
      ∃ e, InUse st.index n e ∧ e.key = t.key ∧
        (e.IsProgram ∧ c = .program (e.val &&& 0x7fff) ∨
          ¬ e.IsProgram ∧ c = .events (macroEvents st.mem e.val)) := by
  rw [triggerContents, Option.map_eq_some_iff]
  have hat := fun i => contentsAt_eq_iff st i c
  constructor
  · rintro ⟨i, hi, hc⟩
    obtain ⟨hin, hk⟩ := (macroIdxLookup_eq_some_iff h t.key_head).mp hi
    exact ⟨st.index i, ⟨i, hin, rfl⟩, hk, (hat i).mp hc⟩
  · rintro ⟨e, ⟨i, hin, rfl⟩, hk, hc⟩
    exact ⟨i, (macroIdxLookup_eq_some_iff h t.key_head).mpr ⟨hin, hk⟩, (hat i).mpr hc⟩

/-- **What a trigger stands for**, read off the invariant: a macro's events are the ones recorded
    for its key. -/
theorem StoreInv.contents_iff {st : MacroStore} (h : StoreInv hw st.index st.mem n recs skip)
    (t : Trigger) (hskip : some t.key ≠ skip) (c : TriggerContents) :
    triggerContents hw st t.key = some c ↔
      (∃ e, InUse st.index n e ∧ e.key = t.key ∧ e.IsProgram ∧ c = .program (e.val &&& 0x7fff)) ∨
      (∃ ev, (t.key, ev) ∈ recs ∧ c = .events ev) := by
  have hevents : ∀ {o k ev}, Placed recs o k ev → macroEvents st.mem o = ev := fun hp =>
    (Holds.macroEvents (by simpa [macros] using hp.holds h.tiled)
      (by have := hp.end_le; have := h.end_lt; omega)).1
  rw [triggerContents_eq_some_iff h.inv]
  constructor
  · rintro ⟨e, hu, hk, ⟨hp, rfl⟩ | ⟨hp, rfl⟩⟩
    · exact Or.inl ⟨e, hu, hk, hp, rfl⟩
    · obtain ⟨ev, hplaced⟩ := h.points e hu hp (hk ▸ hskip)
      exact Or.inr ⟨ev, hk ▸ hplaced.mem_recs, by rw [hevents hplaced]⟩
  · rintro (⟨e, hu, hk, hp, rfl⟩ | ⟨ev, hmem, rfl⟩)
    · exact ⟨e, hu, hk, Or.inl ⟨hp, rfl⟩⟩
    · obtain ⟨o, hplaced⟩ := exists_placed hmem
      obtain ⟨e, hu, hk, hv, hp⟩ := h.entry_of_placed hplaced
      exact ⟨e, hu, hk, Or.inr ⟨hp, by rw [hv, hevents hplaced]⟩⟩

/-! ## The index operations -/

/-- Only entries with other keys matter to the invariant while a key is exempt. -/
theorem StoreInv.congr_index {index' : MacroIndex} {n' : Nat}
    (h : StoreInv hw index mem n recs skip) (h' : IndexInv hw index' n')
    (hsame : ∀ e, some e.key ≠ skip → (InUse index' n' e ↔ InUse index n e)) :
    StoreInv hw index' mem n' recs skip where
  inv := h'
  end_eq := h.end_eq
  fits := h.fits
  tiled := h.tiled
  points e hu hp hne := h.points e ((hsame e hne).mp hu) hp hne
  pointed o k ev hplaced := by
    obtain ⟨hne, v, hv, hu⟩ := h.pointed o k ev hplaced
    exact ⟨hne, v, hv, (hsame ⟨k, v⟩ hne).mpr hu⟩

/-- Exempting a key without a record costs nothing. -/
theorem StoreInv.exempt (h : StoreInv hw index mem n recs none)
    (hno : ∀ ev, (k, ev) ∉ recs) : StoreInv hw index mem n recs (some k) where
  inv := h.inv
  end_eq := h.end_eq
  fits := h.fits
  tiled := h.tiled
  points e hu hp _ := h.points e hu hp (by simp)
  pointed o k' ev hplaced := by
    refine ⟨fun heq => hno ev ?_, (h.pointed o k' ev hplaced).2⟩
    rw [← Option.some.inj heq]
    exact hplaced.mem_recs

theorem StoreInv.setData {i : Nat} (h : StoreInv hw index mem n recs (some k))
    (hk : (index i).key = k) (d : MacroIdxEntryData) :
    StoreInv hw (macroIdxSetData index i d) mem n recs (some k) := by
  refine h.congr_index (h.inv.setData i d) fun e hne => ?_
  have hother : ∀ j, (index j).key = e.key → j ≠ i := fun j hj hji =>
    hne (congrArg some (by rw [← hj, hji, hk]))
  constructor
  · rintro ⟨j, hj, he⟩
    have hkey : (index j).key = e.key := by rw [← he, macroIdxSetData_key]
    exact ⟨j, hj, by rw [← he, macroIdxSetData_of_ne _ _ (hother j hkey)]⟩
  · rintro ⟨j, hj, he⟩
    exact ⟨j, hj, by rw [macroIdxSetData_of_ne _ _ (hother j (congrArg _ he)), he]⟩

/-- A new entry has no record yet. -/
theorem StoreInv.create (h : StoreInv hw index mem n recs none) {t : Trigger}
    (hnew : ∀ i, i < n → (index i).key ≠ t.key) {r : Nat} {index' : MacroIndex}
    (hc : macroIdxCreate hw index t.key = some (r, index')) :
    StoreInv hw index' mem (n + 1) recs (some t.key) := by
  obtain ⟨-, hkey, huse⟩ := create_inUse h.inv hnew hc
  have hno : ∀ ev, (t.key, ev) ∉ recs := fun ev hmem => by
    obtain ⟨o, hp⟩ := exists_placed hmem
    obtain ⟨e, ⟨i, hi, rfl⟩, hk, -, -⟩ := h.entry_of_placed hp
    exact hnew i hi hk
  refine (h.exempt hno).congr_index (h.inv.create hnew hc) fun e hne => ?_
  rw [huse]
  exact or_iff_left fun he => hne (by rw [he, hkey])

/-- Removing the exempt entry leaves nothing exempt. -/
theorem StoreInv.remove {i : Nat} (h : StoreInv hw index mem n recs (some k)) (hi : i < n)
    (hk : (index i).key = k) : StoreInv hw (macroIdxRemove hw index i) mem (n - 1) recs none := by
  have huse := fun e => remove_inUse h.inv hi e
  refine ⟨h.inv.remove hi, h.end_eq, h.fits, h.tiled, ?_, ?_⟩
  · intro e hu hp _
    obtain ⟨hu', hne⟩ := (huse e).mp hu
    exact h.points e hu' hp fun heq => hne (by rw [Option.some.inj heq, hk])
  · intro o k' ev hplaced
    obtain ⟨hne, v, hv, hu⟩ := h.pointed o k' ev hplaced
    refine ⟨by simp, v, hv, (huse _).mpr ⟨hu, fun heq => hne ?_⟩⟩
    rw [← hk, ← heq]

/-! ## Writing records -/

/-- What lies behind the area is nobody's. -/
theorem StoreInv.of_agree {mem' : Storage} (h : StoreInv hw index mem n recs skip)
    (heq : ∀ i, i < macros (encode recs).length → mem' i = mem i) :
    StoreInv hw index mem' n recs skip where
  inv := h.inv
  end_eq := by
    rw [storageReadShort_congr (heq _ (by simp only [macros, macrosEndOffset]; omega))
      (heq _ (by simp only [macros, macrosEndOffset]; omega)), h.end_eq]
  fits := h.fits
  tiled := h.tiled.congr fun i _ hi => heq i (by simpa [macros] using hi)
  points := h.points
  pointed := h.pointed

/-- **Committing**: with a record written behind the area, the exempt entry pointing at it and the
    end offset moved past it, the record belongs to the area and nothing is exempt. -/
theorem StoreInv.commit {mem' : Storage} (h : StoreInv hw index mem n recs (some k))
    {v : Fin 65536} (hu : InUse index n ⟨k, v⟩) (hv : v.val = (encode recs).length)
    (hfit : macros ((encode recs).length + ev.length + 2) ≤ hw.macrosSize)
    (hend : (storageReadShort mem' macrosEndOffset).val = (encode recs).length + ev.length + 2)
    (hrec : Holds mem' (macros (encode recs).length) (record ev))
    (heq : ∀ i, macros 0 ≤ i → i < macros (encode recs).length → mem' i = mem i) :
    StoreInv hw index mem' n (recs ++ [(k, ev)]) none := by
  have hlen : (encode (recs ++ [(k, ev)])).length = (encode recs).length + ev.length + 2 := by
    simp; omega
  refine ⟨h.inv, by rw [hend, hlen], by rw [hlen]; exact hfit, ?_, ?_, ?_⟩
  · rw [encode_append, holds_append]
    refine ⟨h.tiled.congr fun i h1 h2 => heq i h1 (by simpa [macros] using h2), ?_⟩
    simpa [macros] using hrec
  · intro e hue hp _
    by_cases hke : e.key = k
    · refine ⟨ev, placed_append.mpr (Or.inr ⟨0, placed_singleton.mpr ⟨rfl, hke, rfl⟩, ?_⟩)⟩
      rw [h.inv.inUse_inj hue hu hke, hv, Nat.add_zero]
    · obtain ⟨ev', hp'⟩ := h.points e hue hp (by simpa using hke)
      exact ⟨ev', placed_append.mpr (Or.inl hp')⟩
  · intro o k' ev' hp
    refine ⟨by simp, ?_⟩
    rcases placed_append.mp hp with hold | ⟨o', hlast, rfl⟩
    · exact (h.pointed o k' ev' hold).2
    · obtain ⟨rfl, rfl, rfl⟩ := placed_singleton.mp hlast
      exact ⟨v, hv, hu⟩

/-! ## Frames -/

/-- Between the two states only what concerns the key `k` differs. -/
structure SameExcept (k : MacroIdxKey) (index : MacroIndex) (n : Nat) (recs : List Recorded)
    (index' : MacroIndex) (n' : Nat) (recs' : List Recorded) : Prop where
  recs_iff : ∀ k' ev, k' ≠ k → ((k', ev) ∈ recs' ↔ (k', ev) ∈ recs)
  programs_iff : ∀ e : MacroIdxEntry, e.IsProgram → e.key ≠ k →
    (InUse index' n' e ↔ InUse index n e)

theorem SameExcept.trans {index₁ index₂ index₃ : MacroIndex} {n₁ n₂ n₃ : Nat}
    {recs₁ recs₂ recs₃ : List Recorded} (h : SameExcept k index₁ n₁ recs₁ index₂ n₂ recs₂)
    (h' : SameExcept k index₂ n₂ recs₂ index₃ n₃ recs₃) :
    SameExcept k index₁ n₁ recs₁ index₃ n₃ recs₃ where
  recs_iff k' ev hne := (h'.recs_iff k' ev hne).trans (h.recs_iff k' ev hne)
  programs_iff e hp hne := (h'.programs_iff e hp hne).trans (h.programs_iff e hp hne)

/-- **Frame**: the other triggers stand for the same events and programs. -/
theorem SameExcept.contents_eq {st st' : MacroStore} {n' : Nat} {recs' : List Recorded}
    (hs : SameExcept k st.index n recs st'.index n' recs')
    (h : StoreInv hw st.index st.mem n recs none)
    (h' : StoreInv hw st'.index st'.mem n' recs' none) {t : Trigger} (hne : t.key ≠ k) :
    triggerContents hw st' t.key = triggerContents hw st t.key := by
  refine Option.ext fun c => ?_
  rw [h.contents_iff t (by simp), h'.contents_iff t (by simp)]
  constructor
  · rintro (⟨e, hu, hk, hp, hc⟩ | ⟨ev, hmem, hc⟩)
    · exact Or.inl ⟨e, (hs.programs_iff e hp (hk ▸ hne)).mp hu, hk, hp, hc⟩
    · exact Or.inr ⟨ev, (hs.recs_iff _ ev hne).mp hmem, hc⟩
  · rintro (⟨e, hu, hk, hp, hc⟩ | ⟨ev, hmem, hc⟩)
    · exact Or.inl ⟨e, (hs.programs_iff e hp (hk ▸ hne)).mpr hu, hk, hp, hc⟩
    · exact Or.inr ⟨ev, (hs.recs_iff _ ev hne).mpr hmem, hc⟩

end KeyboardFirmware
