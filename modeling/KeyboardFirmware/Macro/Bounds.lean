/-
  What a recording writes to the macro storage, and whether it stays inside the macro area.

  Each operation gets the trace of its writes (`deleteWrites`, `startWrites`, `appendWrites`,
  `commitWrites`), and one lemma says that the trace is all it does to the storage.  Deleting and
  starting only ever write below the end offset.  The cursor of a recording is what can leave the
  area: `macros_append` looks at no bound.  `Recording.inBounds_iff` says exactly when it stays, and
  `recordings_in_bounds_iff` carries that through whole histories.
-/
import KeyboardFirmware.Macro.Recording

namespace KeyboardFirmware

open Lib

/-! ## The writes of each operation -/

/-- The writes of `delete_macro_data`: the records behind the deleted one, moved down, and the new
    end offset. -/
def deleteWrites (st : MacroStore) (idxEntry : Nat) : List (Write Byte) :=
  let idxData := macroIdxGetData st.index idxEntry
  match idxData.type with
  | .programEntry => []
  | .macroEntry =>
    let entryOffset := idxData.data
    let endOffset := storageReadShort st.mem macrosEndOffset
    let entryLen :=
      storageReadShort st.mem (macros entryOffset) + Fin.ofNat 65536 macroDataHeaderLen
    let restOffset := entryOffset + entryLen
    let restLen := endOffset - restOffset
    (if restLen ≠ 0 then [⟨macros entryOffset, readBytes st.mem (macros restOffset) restLen⟩] else [])
      ++ [⟨macrosEndOffset, shortBytes (endOffset - entryLen)⟩]

/-- The writes of `macros_start_macro`: those of the deletion, when the key has an entry. -/
def startWrites (hw : Hardware) (st : MacroStore) (key : MacroIdxKey) : List (Write Byte) :=
  match macroIdxLookup hw st.index key with
  | some entry => deleteWrites st entry
  | none => []

/-- The write of `macros_append`: one byte at the cursor. -/
def appendWrites (st : MacroStore) (event : HidKeycode) : List (Write Byte) :=
  match st.recordingState with
  | none => []
  | some rs => [⟨rs.cursor, [event]⟩]

/-- The writes of `macros_commit_macro`: the length of the macro, then the end offset. -/
def commitWrites (st : MacroStore) : List (Write Byte) :=
  match st.recordingState with
  | none => []
  | some rs =>
    let macroLen : Fin 65536 := Fin.ofNat 65536 (rs.cursor - eventsOf rs.macroData)
    if macroLen = 0 then []
    else
      let endOffset := storageReadShort (storageWriteShort st.mem rs.macroData macroLen) macrosEndOffset
      [⟨rs.macroData, shortBytes macroLen⟩,
        ⟨macrosEndOffset, shortBytes (endOffset + (macroLen + Fin.ofNat 65536 macroDataHeaderLen))⟩]

/-- `storage_write`, for a storage whose writes succeed: the number of bytes written, and the
    storage after it. -/
def storageWrite (mem : Storage) (dst : Nat) (data : List Byte) : Nat × Storage :=
  (data.length, writeBytes mem dst data)

/-- The flag `macros_append` returns: whether its one byte was written. -/
def macrosAppendOk (st : MacroStore) (event : HidKeycode) : Bool :=
  match st.recordingState with
  | none => true
  | some rs => (storageWrite st.mem rs.cursor [event]).1 = 1

theorem deleteMacroData_mem (hw : Hardware) (st : MacroStore) (i : Nat) :
    (deleteMacroData hw st i).mem = applyWrites st.mem (deleteWrites st i) := by
  cases htype : (macroIdxGetData st.index i).type with
  | programEntry => simp only [deleteMacroData, deleteWrites, htype]; rfl
  | macroEntry =>
    simp only [deleteMacroData, deleteWrites, htype]
    split
    · rw [memmove_eq_writeBytes]; rfl
    · rfl

/-- **The trace of a start** is all it does to the storage. -/
theorem macrosStartMacro_mem (hw : Hardware) (st : MacroStore) (key : MacroIdxKey) :
    (macrosStartMacro hw st key).2.mem = applyWrites st.mem (startWrites hw st key) := by
  cases hl : macroIdxLookup hw st.index key with
  | some entry =>
    simp only [macrosStartMacro, startEntry, startWrites, hl]
    exact deleteMacroData_mem hw st entry
  | none =>
    simp only [macrosStartMacro, startEntry, startWrites, hl]
    cases macroIdxCreate hw st.index key <;> rfl

/-- **The trace of an append**. -/
theorem macrosAppend_mem (st : MacroStore) (event : HidKeycode) :
    (macrosAppend st event).mem = applyWrites st.mem (appendWrites st event) := by
  cases hs : st.recordingState with
  | none => simp only [macrosAppend, appendWrites, hs]; rfl
  | some rs => simp only [macrosAppend, appendWrites, hs]; rfl

/-- **The trace of a commit**. -/
theorem macrosCommitMacro_mem (hw : Hardware) (st : MacroStore) :
    (macrosCommitMacro hw st).mem = applyWrites st.mem (commitWrites st) := by
  cases hs : st.recordingState with
  | none => simp only [macrosCommitMacro, commitWrites, hs]; rfl
  | some rs =>
    simp only [macrosCommitMacro, commitWrites, hs]
    split <;> rfl

/-! ## A recording inside the area -/

/-- The store after the start of the recording and its first `i` events. -/
def Recording.stateAt (hw : Hardware) (st : MacroStore) (r : Recording) (i : Nat) : MacroStore :=
  (r.events.take i).foldl macrosAppend (macrosStartMacro hw st r.key).2

/-- Event `i` of the recording has a byte left in the area. -/
def Recording.EventFits (hw : Hardware) (st : MacroStore) (r : Recording) (i : Nat) : Prop :=
  ∀ rs, (r.stateAt hw st i).recordingState = some rs → rs.cursor + 1 ≤ hw.macrosSize

/-- What a recording owes the area: start, appends and commit write inside it, the first event that
    does not fit is refused, and the end offset of a commit leaves room for itself. -/
structure Recording.InBounds (hw : Hardware) (st : MacroStore) (r : Recording) : Prop where
  start : ∀ w ∈ startWrites hw st r.key, w.Below hw.macrosSize
  append : (macrosStartMacro hw st r.key).1 = true →
    ∀ i (hi : i < r.events.length), ∀ w ∈ appendWrites (r.stateAt hw st i) r.events[i],
      w.Below hw.macrosSize
  refuse : (macrosStartMacro hw st r.key).1 = true →
    ∀ i (hi : i < r.events.length), (∀ j < i, r.EventFits hw st j) → ¬ r.EventFits hw st i →
      macrosAppendOk (r.stateAt hw st i) r.events[i] = false
  commit : (macrosStartMacro hw st r.key).1 = true → r.commit = true →
    ∀ w ∈ commitWrites (r.stateAt hw st r.events.length), w.Below hw.macrosSize
  endOffset : (macrosStartMacro hw st r.key).1 = true → r.commit = true →
    macros (storageReadShort (r.run hw st).mem macrosEndOffset) ≤ hw.macrosSize

/-- The bytes that starting a recording on the key gives back: those of the macro it has. -/
def freedBytes (hw : Hardware) (st : MacroStore) (key : MacroIdxKey) : Fin 65536 :=
  match macroIdxLookup hw st.index key with
  | none => 0
  | some entry =>
    let d := macroIdxGetData st.index entry
    match d.type with
    | .programEntry => 0
    | .macroEntry => storageReadShort st.mem (macros d.data) + Fin.ofNat 65536 macroDataHeaderLen

/-- The store has room for the recording: there are no events, or the recording will be refused
    because the index is full, or the area has a place for the length and for every event. -/
def Recording.HasRoom (hw : Hardware) (st : MacroStore) (r : Recording) : Prop :=
  r.events = [] ∨
  (macroIdxLookup hw st.index r.key = none ∧
    (st.index (hw.macroIndexCount - 1)).key.head ≠ noKey) ∨
  eventsOf (macros (storageReadShort st.mem macrosEndOffset - freedBytes hw st r.key : Fin 65536))
    + r.events.length ≤ hw.macrosSize

variable {hw : Hardware} {st : MacroStore} {n : Nat} {recs : List Recorded} {r : Recording}

/-! ## Starting stays inside -/

/-- Deleting writes below the end offset, which lies inside the area. -/
theorem deleteWrites_below (h : StoreInv hw st.index st.mem n recs none) {i : Nat} (hi : i < n) :
    ∀ w ∈ deleteWrites st i, w.Below hw.macrosSize := by
  by_cases hp : (st.index i).IsProgram
  · simp only [deleteWrites, (macroIdxGetData_type st.index i).mpr hp]
    exact fun w hmem => absurd hmem List.not_mem_nil
  · obtain ⟨pre, ev, post, offset, len, endOffset, hd⟩ := h.deletedRecord hi hp
    have hfits := h.fits
    rw [hd.recs_eq, encode_split_length] at hfits
    have hmoved : ∀ bs : List Byte, bs.length = (encode post).length →
        (Write.mk (macros offset) bs).Below hw.macrosSize := by
      intro bs hbs
      show macros offset + bs.length ≤ hw.macrosSize
      rw [hbs, hd.offset_val]
      simp only [macros] at *
      omega
    have hend : (Write.mk macrosEndOffset (shortBytes (endOffset - len))).Below hw.macrosSize :=
      hw.size_ge
    simp only [deleteWrites, macroIdxGetData_not_program hp, hd.offset_eq, hd.len_eq, hd.end_eq]
    intro w hmem
    rcases List.mem_append.mp hmem with hmem | hmem
    · split at hmem
      · rw [List.mem_singleton.mp hmem]
        refine hmoved _ ?_
        rw [← hd.restLen_val]
        simp [readBytes]
      · exact absurd hmem List.not_mem_nil
    · rw [List.mem_singleton.mp hmem]
      exact hend

theorem startWrites_below (h : StoreInv hw st.index st.mem n recs none) (t : Trigger) :
    ∀ w ∈ startWrites hw st t.key, w.Below hw.macrosSize := by
  rw [startWrites]
  cases hl : macroIdxLookup hw st.index t.key with
  | some entry =>
    have hi := ((macroIdxLookup_eq_some_iff h.inv t.key_head).mp hl).1
    exact deleteWrites_below h hi
  | none => exact fun w hmem => absurd hmem List.not_mem_nil

/-! ## Room, before and after the start -/

/-- A start is refused exactly when the key is new and the index is full. -/
theorem macrosStartMacro_refused_iff (key : MacroIdxKey) :
    (macrosStartMacro hw st key).1 = false ↔
      macroIdxLookup hw st.index key = none ∧
        (st.index (hw.macroIndexCount - 1)).key.head ≠ noKey := by
  rw [macrosStartMacro, startEntry]
  cases macroIdxLookup hw st.index key with
  | some entry => simp
  | none =>
    rw [macroIdxCreate]
    by_cases hfull : (st.index (hw.macroIndexCount - 1)).key.head = noKey <;> simp [hfull]

/-- A start lowers the end offset by what it gives back. -/
theorem macrosStartMacro_endOffset (key : MacroIdxKey) :
    storageReadShort (macrosStartMacro hw st key).2.mem macrosEndOffset
      = storageReadShort st.mem macrosEndOffset - freedBytes hw st key := by
  have hzero : ∀ x : Fin 65536, x - 0 = x := fun x => Fin.ext (by
    rw [Fin.sub_val_of_le (Fin.zero_le _)]; rfl)
  cases hl : macroIdxLookup hw st.index key with
  | some entry =>
    simp only [macrosStartMacro, startEntry, freedBytes, hl]
    cases htype : (macroIdxGetData st.index entry).type with
    | programEntry => simp only [deleteMacroData, htype, hzero]
    | macroEntry => simp only [deleteMacroData, htype, storageReadShort_writeShort]
  | none =>
    simp only [macrosStartMacro, startEntry, freedBytes, hl, hzero]
    cases macroIdxCreate hw st.index key <;> rfl

/-- `HasRoom` is the condition under which a recording keeps the store. -/
theorem Recording.hasRoom_iff :
    r.HasRoom hw st ↔
      ((macrosStartMacro hw st r.key).1 = true → r.events ≠ [] → r.Fits hw st) := by
  rw [HasRoom, Fits, macrosStartMacro_endOffset, ← macrosStartMacro_refused_iff]
  cases (macrosStartMacro hw st r.key).1 with
  | false => simp
  | true =>
    simp only [Bool.true_eq_false, false_or, true_implies]
    exact or_iff_not_imp_left

/-! ## The recording itself -/

/-- Where a recording stands after `i` events: its cursor is `i` bytes behind the first event. -/
theorem RecordingInv.stateAt {r : Recording} {k : MacroIdxKey} {entry : Nat}
    (h : RecordingInv hw (macrosStartMacro hw st r.key).2 n recs k [] entry) {i : Nat}
    (hi : i ≤ r.events.length) :
    (r.stateAt hw st i).recordingState = some
      { macroData := macros (encode recs).length
        cursor := eventsOf (macros (encode recs).length) + i
        indexEntry := entry } := by
  have hstate := (h.appendAll (r.events.take i)).state
  rw [List.nil_append, List.length_take, Nat.min_eq_left hi] at hstate
  exact hstate

/-- **When a recording stays inside the area**: exactly when the store has room for it. -/
theorem Recording.inBounds_iff (h : StoreInv hw st.index st.mem n recs none) (r : Recording) :
    r.InBounds hw st ↔ r.HasRoom hw st := by
  have hkey : r.key = r.trigger.trigger.key := r.trigger.key_eq
  rw [hasRoom_iff]
  constructor
  · -- the first event that does not fit is written all the same
    intro hb hs hne
    by_contra hno
    obtain ⟨n₁, recs₁, entry, hrec, -⟩ :=
      macrosStartMacro_spec h r.trigger.trigger (hkey ▸ hs)
    rw [← hkey] at hrec
    rw [Fits, hrec.store.end_eq] at hno
    have hpos : 0 < r.events.length := List.length_pos_iff.mpr hne
    have hi : hw.macrosSize - eventsOf (macros (encode recs₁).length) < r.events.length := by omega
    have hmem := hb.append hs _ hi
    rw [appendWrites, hrec.stateAt (by omega)] at hmem
    have hbelow := hmem _ (List.mem_singleton.mpr rfl)
    simp only [Write.Below, List.length_singleton] at hbelow
    omega
  · intro hroom
    obtain ⟨n₂, recs₂, hinv₂, -, -⟩ := r.run_spec h hroom
    have hstart := startWrites_below h r.trigger.trigger
    rw [← hkey] at hstart
    have hat : (macrosStartMacro hw st r.key).1 = true → ∃ e entry, ∀ i ≤ r.events.length,
        (r.stateAt hw st i).recordingState = some
          { macroData := macros e, cursor := eventsOf (macros e) + i, indexEntry := entry } ∧
        (r.events ≠ [] → eventsOf (macros e) + r.events.length ≤ hw.macrosSize) := by
      intro hs
      obtain ⟨n₁, recs₁, entry, hrec, -⟩ :=
        macrosStartMacro_spec h r.trigger.trigger (hkey ▸ hs)
      rw [← hkey] at hrec
      refine ⟨(encode recs₁).length, entry, fun i hi => ⟨hrec.stateAt hi, fun hne => ?_⟩⟩
      have hfits := hroom hs hne
      rwa [Fits, hrec.store.end_eq] at hfits
    refine ⟨hstart, fun hs i hi w hmem => ?_, fun hs i hi _ hno => ?_, fun hs _ w hmem => ?_,
      fun _ _ => ?_⟩
    · obtain ⟨e, entry, hstate⟩ := hat hs
      obtain ⟨hst, hfit⟩ := hstate i hi.le
      have hle := hfit (List.ne_nil_of_length_pos (by omega))
      rw [appendWrites, hst] at hmem
      rw [List.mem_singleton.mp hmem]
      show eventsOf (macros e) + i + 1 ≤ hw.macrosSize
      omega
    · -- every event fits
      obtain ⟨e, entry, hstate⟩ := hat hs
      obtain ⟨hst, hfit⟩ := hstate i hi.le
      have hle := hfit (List.ne_nil_of_length_pos (by omega))
      refine absurd (fun rs hrs => ?_) hno
      rw [hst] at hrs
      obtain rfl := Option.some.inj hrs
      show eventsOf (macros e) + i + 1 ≤ hw.macrosSize
      omega
    · obtain ⟨e, entry, hstate⟩ := hat hs
      obtain ⟨hst, hfit⟩ := hstate _ le_rfl
      rw [commitWrites, hst] at hmem
      dsimp only at hmem
      split at hmem
      · exact absurd hmem List.not_mem_nil
      · next hlen =>
        rw [Nat.add_sub_cancel_left] at hlen
        have hne : r.events ≠ [] := by
          rintro hnil
          rw [hnil] at hlen
          exact hlen rfl
        have hle := hfit hne
        simp only [eventsOf, macroDataHeaderLen] at hle
        rcases List.mem_cons.mp hmem with rfl | hmem
        · show macros e + (shortBytes _).length ≤ hw.macrosSize
          rw [shortBytes_length]
          omega
        · rw [List.mem_singleton.mp hmem]
          exact hw.size_ge
    · rw [hinv₂.end_eq]
      exact hinv₂.fits

/-- One event more is one append more. -/
theorem Recording.stateAt_succ {i : Nat} (hi : i < r.events.length) :
    r.stateAt hw st (i + 1) = macrosAppend (r.stateAt hw st i) r.events[i] := by
  rw [stateAt, stateAt, List.take_succ_eq_append_getElem hi, List.foldl_append]
  rfl

/-- **A recording inside the area** leaves every byte behind the area as it was. -/
theorem Recording.InBounds.frame (hb : r.InBounds hw st) {a : Nat} (ha : hw.macrosSize ≤ a) :
    (r.run hw st).mem a = st.mem a := by
  have hstart : (macrosStartMacro hw st r.key).2.mem a = st.mem a := by
    rw [macrosStartMacro_mem]
    exact applyWrites_of_le hb.start ha
  rw [run]
  cases hs : macrosStartMacro hw st r.key with
  | mk started st₁ =>
    have hflag : (macrosStartMacro hw st r.key).1 = started := congrArg Prod.fst hs
    cases started with
    | false =>
      rw [hs] at hstart
      exact hstart
    | true =>
      have happend : ∀ i ≤ r.events.length, (r.stateAt hw st i).mem a = st.mem a := by
        intro i
        induction i with
        | zero => exact fun _ => hstart
        | succ i ih =>
          intro hi
          rw [stateAt_succ hi, macrosAppend_mem,
            applyWrites_of_le (hb.append hflag i hi) ha, ih (by omega)]
      have hall : r.stateAt hw st r.events.length = r.events.foldl macrosAppend st₁ := by
        rw [stateAt, List.take_length, hs]
      show (r.finish hw (r.events.foldl macrosAppend st₁)).mem a = st.mem a
      rw [← hall, finish]
      split
      · next hcommit =>
        rw [macrosCommitMacro_mem, applyWrites_of_le (hb.commit hflag hcommit) ha]
        exact happend _ le_rfl
      · rw [macrosAbortMacro]
        split <;> exact happend _ le_rfl

/-! ## Histories -/

/-- Every recording of the history has `P` at the store it starts from. -/
def Throughout (hw : Hardware) (P : MacroStore → Recording → Prop) : MacroStore → List Recording → Prop
  | _, [] => True
  | st, r :: rs => P st r ∧ Throughout hw P (r.run hw st) rs

/-- A recording the store has room for leaves a store the next one can start from. -/
theorem Recording.HasRoom.storeOk (hroom : r.HasRoom hw st) (hok : StoreOk hw st) :
    StoreOk hw (r.run hw st) := by
  obtain ⟨n, recs, hinv, -⟩ := hok
  obtain ⟨n', recs', hinv', -⟩ := r.run_spec hinv (hasRoom_iff.mp hroom)
  exact hinv'.storeOk

/-- **Recording stays inside the macro area exactly while there is room.**  From any store that
    satisfies the invariant, and over any history of recordings of any number of events: all of
    them write inside the area, refuse the first event that does not fit and leave a valid end
    offset, if and only if the store has room for each of them when it starts. -/
theorem recordings_in_bounds_iff (hw : Hardware) (st : MacroStore) (hok : StoreOk hw st)
    (rs : List Recording) :
    Throughout hw (fun st r => r.InBounds hw st) st rs ↔
      Throughout hw (fun st r => r.HasRoom hw st) st rs := by
  induction rs generalizing st with
  | nil => exact Iff.rfl
  | cons r rs ih =>
    obtain ⟨n, recs, hinv, -⟩ := id hok
    show r.InBounds hw st ∧ _ ↔ r.HasRoom hw st ∧ _
    rw [Recording.inBounds_iff hinv]
    exact and_congr_right fun hroom => ih (r.run hw st) (hroom.storeOk hok)

/-! ## A full area -/

/-- A blank store. -/
def blankStore : MacroStore where
  index := fun _ => emptyEntry
  mem := fun _ => 0xFF
  recordingState := none

/-- A recording of `count` events, all the same, triggered by one key. -/
def repeatRecording (count : Nat) : Recording where
  trigger :=
    { buf := ⟨[5, 0, 0, 0], rfl⟩
      count := 1
      trigger := ⟨{5}, Finset.singleton_nonempty 5, by decide, by decide⟩
      count_le := by decide
      nodup := by decide
      toFinset_eq := by decide }
  events := List.replicate count 4
  commit := true

theorem blankStore_ok (hw : Hardware) : StoreOk hw (blankStore.reset hw) := by
  obtain ⟨n, hinv⟩ := reset_storeInv hw blankStore
  exact hinv.storeOk

/-- In 256 bytes, 252 events fit, also in place of 100 earlier ones. -/
theorem recordings_in_bounds_full_area :
    Throughout ergodoxInternal (fun st r => r.InBounds ergodoxInternal st)
      (blankStore.reset ergodoxInternal) [repeatRecording 100, repeatRecording 252] :=
  (recordings_in_bounds_iff ergodoxInternal _ (blankStore_ok _) _).mpr
    ⟨Or.inr (Or.inr (by decide +kernel)), Or.inr (Or.inr (by decide +kernel)), trivial⟩

/-- One event more, and `macros_append` writes it behind the area and reports success; the commit
    leaves an end offset that is outside too. -/
theorem recording_leaves_macro_area :
    StoreOk ergodoxInternal (blankStore.reset ergodoxInternal) ∧
    (let st := (repeatRecording 253).stateAt ergodoxInternal (blankStore.reset ergodoxInternal) 252
     appendWrites st 4 = [⟨ergodoxInternal.macrosSize, [4]⟩] ∧ macrosAppendOk st 4 = true) ∧
    (let st := (repeatRecording 253).run ergodoxInternal (blankStore.reset ergodoxInternal)
     st.mem ergodoxInternal.macrosSize = 4 ∧
       ergodoxInternal.macrosSize < macros (storageReadShort st.mem macrosEndOffset)) ∧
    ¬ Throughout ergodoxInternal (fun st r => r.InBounds ergodoxInternal st)
      (blankStore.reset ergodoxInternal) [repeatRecording 253] := by
  refine ⟨blankStore_ok _, ⟨by decide +kernel, by decide +kernel⟩, ⟨by decide +kernel, by decide +kernel⟩, fun h => ?_⟩
  obtain ⟨n, hinv⟩ := reset_storeInv ergodoxInternal blankStore
  have hroom := ((repeatRecording 253).inBounds_iff hinv).mp h.1
  rcases hroom with hnil | ⟨-, hfull⟩ | hfit
  · exact absurd hnil (by decide)
  · exact absurd hfull (by decide +kernel)
  · exact absurd hfit (by decide +kernel)

end KeyboardFirmware
