/-
  `macros_start_macro` when the macro storage fails at one point.

  The index is in the `avr_eeprom`, whose functions cannot fail; the macro storage can, at five points.  Up
  to the move of the records nothing has changed.  Behind it the old entry of the trigger points at what
  has moved into the place of its record, and behind the index the entry of a new trigger is there: the
  function does not take back either when it then fails (`start_intact_iff`).
-/
import KeyboardFirmware.Macro.Bounds

namespace KeyboardFirmware.Faults

open Lib

/-- The points at which the macro storage is read, moved and written. -/
inductive StorePoint where
  /-- `delete_macro_data`: the read of the end offset. -/
  | deleteReadEnd
  | deleteReadLength
  | deleteMove
  | deleteWriteEnd
  /-- `macros_start_macro`: the read of the end offset. -/
  | startReadEnd
  deriving DecidableEq

variable (hw : Hardware) (fault : Option StorePoint)

/-- `delete_macro_data`, with a failure before anything changes at the point. -/
def deleteMacroData (st : MacroStore) (idxEntry : Nat) : Bool × MacroStore :=
  let idxData := macroIdxGetData st.index idxEntry
  match idxData.type with
  | .programEntry => (true, st)
  | .macroEntry =>
    let entryOffset := idxData.data
    if fault = some .deleteReadEnd then (false, st) else
    let endOffset := storageReadShort st.mem macrosEndOffset
    if fault = some .deleteReadLength then (false, st) else
    let entryLen := storageReadShort st.mem (macros entryOffset) + Fin.ofNat 65536 macroDataHeaderLen
    let restOffset := entryOffset + entryLen
    let restLen := endOffset - restOffset
    if restLen ≠ 0 ∧ fault = some .deleteMove then (false, st) else
    let st :=
      if restLen ≠ 0 then
        { st with
          mem := memmove st.mem (macros entryOffset) (macros restOffset) restLen
          index := macroIdxIterate hw (macroShiftDownIterator entryOffset entryLen) st.index }
      else st
    if fault = some .deleteWriteEnd then (false, st) else
    (true, { st with mem := storageWriteShort st.mem macrosEndOffset (endOffset - entryLen) })

/-- The entry `macros_start_macro` records into, and whether there is one. -/
def startEntry (st : MacroStore) (key : MacroIdxKey) : Option Nat × MacroStore :=
  match macroIdxLookup hw st.index key with
  | some entry =>
    let deleted := deleteMacroData hw fault st entry
    (if deleted.1 then some entry else none, deleted.2)
  | none =>
    match macroIdxCreate hw st.index key with
    | some (entry, index) => (some entry, { st with index := index })
    | none => (none, st)

/-- `macros_start_macro`; the flag tells whether a recording was started. -/
def macrosStartMacro (st : MacroStore) (key : MacroIdxKey) : Bool × MacroStore :=
  match startEntry hw fault st key with
  | (none, st) => (false, { st with recordingState := none })
  | (some entry, st) =>
    if fault = some .startReadEnd then (false, { st with recordingState := none }) else
    let data := storageReadShort st.mem macrosEndOffset
    (true,
      { index := macroIdxSetData st.index entry ⟨.macroEntry, data⟩
        mem := st.mem
        recordingState := some
          { macroData := macros data, cursor := eventsOf (macros data), indexEntry := entry } })

/-- The record behind that of an entry: its offset. -/
def nextOffset (st : MacroStore) (entry : Nat) : Fin 65536 :=
  let offset := (macroIdxGetData st.index entry).data
  offset + (storageReadShort st.mem (macros offset) + Fin.ofNat 65536 macroDataHeaderLen)

/-- The entry's record is the last one, or the record behind it has the same events. -/
def NextSame (st : MacroStore) (entry : Nat) : Prop :=
  nextOffset st entry = storageReadShort st.mem macrosEndOffset ∨
    macroEvents st.mem (nextOffset st entry) = macroEvents st.mem (macroIdxGetData st.index entry).data

/-- A failure at the point is not seen: for a macro that is there, it comes before the move or the move does
    not show; for a new trigger, it does not come behind the creation of the entry. -/
def Harmless (st : MacroStore) (key : MacroIdxKey) : Prop :=
  match macroIdxLookup hw st.index key with
  | some entry =>
    (macroIdxGetData st.index entry).type = .macroEntry →
      fault = some .deleteWriteEnd ∨ fault = some .startReadEnd → NextSame st entry
  | none => fault = some .startReadEnd → (st.index (hw.macroIndexCount - 1)).key.head ≠ noKey

/-- Every trigger leads to what it led to before. -/
def Intact (st st' : MacroStore) : Prop :=
  ∀ t : Trigger, triggerContents hw st' t.key = triggerContents hw st t.key

/-! ## Without a failure -/

variable {hw} {fault} {st : MacroStore} {key : MacroIdxKey} {i n : Nat} {recs : List Recorded}

/-- A failure in front of the move. -/
def Early (fault : Option StorePoint) : Prop :=
  ∃ point, fault = some point ∧ point ≠ .deleteWriteEnd ∧ point ≠ .startReadEnd

/-- What deleting comes to: the whole of it, nothing, or all but the end offset. -/
theorem deleteMacroData_cases (fault : Option StorePoint) (st : MacroStore) (i : Nat) :
    (deleteMacroData hw fault st i = (true, KeyboardFirmware.deleteMacroData hw st i) ∧
        ((macroIdxGetData st.index i).type = .macroEntry → fault ≠ some .deleteWriteEnd)) ∨
      (deleteMacroData hw fault st i = (false, st) ∧ Early fault) ∨
      ((macroIdxGetData st.index i).type = .macroEntry ∧ fault = some .deleteWriteEnd ∧
        (deleteMacroData hw fault st i).1 = false ∧
        ∃ v, KeyboardFirmware.deleteMacroData hw st i =
          { (deleteMacroData hw fault st i).2 with
            mem := storageWriteShort (deleteMacroData hw fault st i).2.mem macrosEndOffset v }) := by
  rw [deleteMacroData, KeyboardFirmware.deleteMacroData]
  cases (macroIdxGetData st.index i).type with
  | programEntry => exact .inl ⟨rfl, by rintro ⟨⟩⟩
  | macroEntry =>
    dsimp only
    by_cases hend : fault = some .deleteReadEnd
    · rw [if_pos hend]
      exact .inr (.inl ⟨rfl, _, hend, by rintro ⟨⟩, by rintro ⟨⟩⟩)
    · rw [if_neg hend]
      by_cases hlength : fault = some .deleteReadLength
      · rw [if_pos hlength]
        exact .inr (.inl ⟨rfl, _, hlength, by rintro ⟨⟩, by rintro ⟨⟩⟩)
      · rw [if_neg hlength]
        split
        · next hmove => exact .inr (.inl ⟨rfl, _, hmove.2, by rintro ⟨⟩, by rintro ⟨⟩⟩)
        · by_cases hwrite : fault = some .deleteWriteEnd
          · rw [if_pos hwrite]
            exact .inr (.inr ⟨rfl, hwrite, rfl, _, rfl⟩)
          · rw [if_neg hwrite]
            exact .inl ⟨rfl, fun _ => hwrite⟩

/-- Without a failure, it is the function of the model. -/
theorem macrosStartMacro_none (st : MacroStore) (key : MacroIdxKey) :
    macrosStartMacro hw none st key = KeyboardFirmware.macrosStartMacro hw st key := by
  rw [macrosStartMacro, KeyboardFirmware.macrosStartMacro, startEntry, KeyboardFirmware.startEntry]
  cases macroIdxLookup hw st.index key with
  | some entry =>
    have hdeleted : deleteMacroData hw none st entry =
        (true, KeyboardFirmware.deleteMacroData hw st entry) := by
      rcases deleteMacroData_cases none st entry with h | ⟨_, _, h, _⟩ | ⟨_, h, _⟩
      · exact h.1
      · cases h
      · cases h
    dsimp only
    rw [hdeleted]
    rfl
  | none =>
    cases macroIdxCreate hw st.index key with
    | some created => rfl
    | none => rfl

/-! ## What a trigger leads to -/

/-- The events of a macro do not depend on the end offset. -/
theorem macroEvents_endOffset (mem : Storage) (v : Fin 65536) (o : Nat) :
    macroEvents (storageWriteShort mem macrosEndOffset v) o = macroEvents mem o := by
  have hbyte : ∀ a, 2 ≤ a → storageWriteShort mem macrosEndOffset v a = mem a := fun a ha =>
    storageWriteShort_of_outside _ _ (.inr ha)
  have hle : 2 ≤ macros o := Nat.le_add_right 2 o
  have hlength : storageReadShort (storageWriteShort mem macrosEndOffset v) (macros o) =
      storageReadShort mem (macros o) := storageReadShort_congr (hbyte _ hle) (hbyte _ (by omega))
  rw [macroEvents, hlength]
  refine List.map_congr_left fun j _ => hbyte _ ?_
  exact (hle.trans (Nat.le_add_right _ macroDataHeaderLen)).trans (Nat.le_add_right _ j)

theorem triggerContents_endOffset (st : MacroStore) (v : Fin 65536) (key : MacroIdxKey) :
    triggerContents hw { st with mem := storageWriteShort st.mem macrosEndOffset v } key =
      triggerContents hw st key := by
  rw [triggerContents, triggerContents]
  simp only [macroEvents_endOffset]

/-- Deleting leaves the other triggers as they are. -/
theorem delete_contents_of_ne (h : StoreInv hw st.index st.mem n recs none) (hi : i < n) {t : Trigger}
    (hne : t.key ≠ (st.index i).key) :
    triggerContents hw (KeyboardFirmware.deleteMacroData hw st i) t.key = triggerContents hw st t.key := by
  obtain ⟨recs', h', _, hsame⟩ := deleteMacroData_spec h hi
  have hskip : some t.key ≠ some (st.index i).key := fun heq => hne (Option.some.inj heq)
  refine Option.ext fun c => ?_
  rw [h.contents_iff t nofun, h'.contents_iff t hskip]
  refine or_congr ⟨?_, ?_⟩ ⟨?_, ?_⟩
  · rintro ⟨e, hu, hk, hp, hc⟩
    exact ⟨e, (hsame.programs_iff e hp (hk ▸ hne)).mp hu, hk, hp, hc⟩
  · rintro ⟨e, hu, hk, hp, hc⟩
    exact ⟨e, (hsame.programs_iff e hp (hk ▸ hne)).mpr hu, hk, hp, hc⟩
  · rintro ⟨ev, hmem, hc⟩
    exact ⟨ev, (hsame.recs_iff _ ev hne).mp hmem, hc⟩
  · rintro ⟨ev, hmem, hc⟩
    exact ⟨ev, (hsame.recs_iff _ ev hne).mpr hmem, hc⟩

/-- The events that the deleted entry leads to: those that have moved into the place of its own. -/
def movedEvents (ev : List HidKeycode) : List Recorded → List HidKeycode
  | [] => ev
  | behind :: _ => behind.2

section Deleted

variable {pre post : List Recorded} {ev : List HidKeycode} {offset len endOffset : Fin 65536}

theorem events_at (h : StoreInv hw st.index st.mem n recs none) {o : Nat} {k : MacroIdxKey}
    (hp : Placed recs o k ev) : macroEvents st.mem o = ev := by
  have hlen := hp.end_le
  have hlt := h.end_lt
  exact (Holds.macroEvents (by simpa [macros] using hp.holds h.tiled) (by omega)).1

/-- The index and the events behind the deletion, as its entry sees them. -/
theorem deleted_entry (h : StoreInv hw st.index st.mem n recs none) (hi : i < n)
    (hp : ¬ (st.index i).IsProgram) (hd : DeletedRecord st i recs pre ev post offset len endOffset) :
    (KeyboardFirmware.deleteMacroData hw st i).index i = st.index i ∧
      macroEvents (KeyboardFirmware.deleteMacroData hw st i).mem offset = movedEvents ev post := by
  obtain rfl := hd.recs_eq
  have hcode := @deleteMacroData_not_program hw st i _ _ _ hp hd.offset_eq hd.len_eq hd.end_eq
  have hlt := h.end_lt
  rw [encode_split_length] at hlt
  cases post with
  | nil =>
    have hrest : endOffset - (offset + len) = 0 := Fin.ext hd.restLen_val
    rw [if_neg (not_not_intro hrest)] at hcode
    rw [hcode]
    refine ⟨rfl, (macroEvents_endOffset ..).trans ?_⟩
    rw [hd.offset_val]
    exact events_at h ⟨pre, [], rfl, rfl⟩
  | cons behind post =>
    have hrest : endOffset - (offset + len) ≠ 0 := by
      intro hzero
      have hval := hd.restLen_val
      rw [hzero, encode_cons, List.length_append, record_length] at hval
      exact absurd hval (by show ¬ 0 = _; omega)
    rw [if_pos hrest] at hcode
    rw [hcode]
    constructor
    · -- the entry itself is not behind its record
      have hnot : ¬ (¬ (st.index i).IsProgram ∧ offset < (st.index i).val) := by
        rw [hd.offset_eq]
        exact fun hself => lt_irrefl _ hself.2
      show macroIdxIterate hw (macroShiftDownIterator offset len) st.index i = _
      rw [macroIdxIterate_eq h.inv _ (macroShiftDownIterator_eq offset len)]
      show (if i < n then shiftEntry offset len (st.index i) else st.index i) = _
      rw [if_pos hi, shiftEntry, if_neg hnot]
    · refine (macroEvents_endOffset ..).trans ?_
      have htiled := h.tiled
      rw [encode_append, encode_cons, ← List.append_assoc] at htiled
      have hbehind := (holds_append.mp htiled).2
      have hplace : macros 0 + (encode pre ++ record ev).length = macros (offset + len).val := by
        rw [List.length_append, record_length, hd.rest_val, macros, macros, Nat.add_zero]
      rw [hplace] at hbehind
      have hmoved : Holds (memmove st.mem (macros offset) (macros (offset + len).val)
          (encode (behind :: post)).length) (macros offset) (encode (behind :: post)) := memmove_holds hbehind
      rw [← hd.restLen_val, encode_cons] at hmoved
      rw [encode_cons, List.length_append, record_length] at hlt
      exact (Holds.macroEvents (holds_append.mp hmoved).1 (by omega)).1

/-- The deleted trigger leads to what has moved. -/
theorem delete_contents_self (h : StoreInv hw st.index st.mem n recs none) (hi : i < n)
    (hp : ¬ (st.index i).IsProgram) (hd : DeletedRecord st i recs pre ev post offset len endOffset) {t : Trigger}
    (ht : (st.index i).key = t.key) :
    triggerContents hw (KeyboardFirmware.deleteMacroData hw st i) t.key = some (.events (movedEvents ev post)) := by
  obtain ⟨_, h', _⟩ := deleteMacroData_spec h hi
  obtain ⟨hentry, hevents⟩ := deleted_entry h hi hp hd
  refine (triggerContents_eq_some_iff h'.inv t _).mpr ⟨st.index i, ⟨i, hi, hentry⟩, ht, .inr ⟨hp, ?_⟩⟩
  rw [hd.offset_eq, hevents]

theorem nextSame_iff (h : StoreInv hw st.index st.mem n recs none) (hp : ¬ (st.index i).IsProgram)
    (hd : DeletedRecord st i recs pre ev post offset len endOffset) : NextSame st i ↔ movedEvents ev post = ev := by
  have hnext : nextOffset st i = offset + len := by
    rw [nextOffset, macroIdxGetData_not_program hp]
    dsimp only
    rw [hd.offset_eq, hd.len_eq]
  have hown : macroEvents st.mem offset = ev := by
    rw [hd.offset_val]
    exact events_at h ⟨pre, post, hd.recs_eq, rfl⟩
  rw [NextSame, hnext, hd.end_eq, macroIdxGetData_not_program hp]
  dsimp only
  rw [hd.offset_eq, hown]
  have hend : endOffset.val = (encode pre).length + (ev.length + 2) + (encode post).length := by
    rw [← hd.end_eq, h.end_eq, hd.recs_eq, encode_split_length]
  cases post with
  | nil =>
    have hlast : offset + len = endOffset := by
      apply Fin.ext
      rw [hd.rest_val, hend]
      rfl
    exact iff_of_true (.inl hlast) rfl
  | cons behind post =>
    have hplaced : Placed recs (offset + len).val behind.1 behind.2 := by
      refine ⟨pre ++ [((st.index i).key, ev)], post, ?_, ?_⟩
      · rw [hd.recs_eq, List.append_cons]
      · rw [hd.rest_val, encode_append, List.length_append, encode_cons, encode_nil, List.append_nil, record_length]
    rw [events_at h hplaced]
    refine or_iff_right fun hlast => ?_
    have hval := hd.rest_val
    rw [hlast, hend, encode_cons, List.length_append, record_length] at hval
    omega

end Deleted

/-- Deleting a macro shows unless the move does not. -/
theorem delete_intact_iff (h : StoreInv hw st.index st.mem n recs none) (hi : i < n)
    (hp : ¬ (st.index i).IsProgram) {t : Trigger} (ht : (st.index i).key = t.key) :
    Intact hw st (KeyboardFirmware.deleteMacroData hw st i) ↔ NextSame st i := by
  obtain ⟨pre, ev, post, offset, len, endOffset, hd⟩ := h.deletedRecord hi hp
  have hself := delete_contents_self h hi hp hd ht
  have hbefore : triggerContents hw st t.key = some (.events ev) := by
    refine (triggerContents_eq_some_iff h.inv t _).mpr ⟨st.index i, ⟨i, hi, rfl⟩, ht, .inr ⟨hp, ?_⟩⟩
    rw [hd.offset_eq, hd.offset_val, events_at h ⟨pre, post, hd.recs_eq, rfl⟩]
  rw [nextSame_iff h hp hd]
  constructor
  · intro hintact
    have hsame := hintact t
    rw [hself, hbefore] at hsame
    exact TriggerContents.events.inj (Option.some.inj hsame)
  · intro hmoved t'
    by_cases hne : t'.key = (st.index i).key
    · rw [hne, ht, hself, hbefore, hmoved]
    · exact delete_contents_of_ne h hi hne

/-- Creating an entry shows: the new trigger is found. -/
theorem create_not_intact (h : StoreInv hw st.index st.mem n recs none) {t : Trigger} {r : Nat}
    {index' : MacroIndex} (hlookup : macroIdxLookup hw st.index t.key = none)
    (hcreate : macroIdxCreate hw st.index t.key = some (r, index')) :
    ¬ Intact hw st { st with index := index' } := by
  intro hintact
  have hnew := (macroIdxLookup_eq_none_iff h.inv t.key_head).mp hlookup
  obtain ⟨hr, hkey, _⟩ := create_inUse h.inv hnew hcreate
  have hfound : macroIdxLookup hw index' t.key = some r :=
    (macroIdxLookup_eq_some_iff (h.inv.create hnew hcreate) t.key_head).mpr ⟨hr, hkey⟩
  have hsame := hintact t
  rw [triggerContents, triggerContents, hlookup, hfound] at hsame
  cases hsame

end KeyboardFirmware.Faults
