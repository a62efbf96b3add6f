/-
  The recording functions step by step, with the points at which they poll the USB.

  `USB_KeepAlive(true)` handles the request that is pending, whatever the caller is in the middle of;
  its guard only keeps it from calling itself.  The macro storage is written page by page and polls
  behind every page; the functions of the index poll behind every entry they move.  Each function of
  `macro.c` and `macro_index.c` is a program that yields at these points, and with nothing delivered
  it does what its definition in one piece does (`startProg_run`, `appendProg_run`,
  `commitProg_run`, `abortProg_run`).
-/
import KeyboardFirmware.Lib.Yield
import KeyboardFirmware.Macro.Recording

namespace KeyboardFirmware

open Lib

/-- A storage that is written page by page: `spi_eeprom` and `i2c_eeprom`. -/
structure PagedStorage where
  pageSize : Nat
  pos : 0 < pageSize

/-- `i2c_eeprom`, with `EEEXT_PAGE_SIZE`. -/
def i2cEeprom : PagedStorage := ⟨16, by decide⟩

/-- `spi_eeprom`, with the smaller `SPI_MEM_PAGE_SIZE`. -/
def spiEeprom : PagedStorage := ⟨32, by decide⟩

/-- `dst_page_remaining`: the bytes from `dst` to the end of its page. -/
def PagedStorage.pageRemaining (ps : PagedStorage) (dst : Nat) : Nat :=
  ps.pageSize - dst % ps.pageSize

/-- A write to the macro storage. -/
def writeMem (dst : Nat) (data : List Byte) (st : MacroStore) : MacroStore :=
  { st with mem := writeBytes st.mem dst data }

/-- A change of the index. -/
def onIndex (f : MacroIndex → MacroIndex) (st : MacroStore) : MacroStore :=
  { st with index := f st.index }

/-- The recording state is in RAM. -/
def setRecordingState (rs : Option RecordingState) (st : MacroStore) : MacroStore :=
  { st with recordingState := rs }

section Programs

variable (hw : Hardware) (ps : PagedStorage)

/-- The loop of `storage_write`. -/
def storageWriteProg : Nat → Nat → List Byte → Prog MacroStore Unit
  | 0, _, _ => .done ()
  | _ + 1, _, [] => .done ()
  | fuel + 1, dst, data =>
    let n := min data.length (ps.pageRemaining dst)
    .update (writeMem dst (data.take n)) <| .yield <|
      storageWriteProg fuel (dst + n) (data.drop n)

/-- The loop of `storage_memmove`, in the direction it takes when `src` is not below `dst`. -/
def storageMemmoveProg : Nat → Nat → Nat → Nat → Prog MacroStore Unit
  | 0, _, _, _ => .done ()
  | _ + 1, _, _, 0 => .done ()
  | fuel + 1, dst, src, count =>
    let n := min count (ps.pageRemaining dst)
    .read fun st =>
      let buf := readBytes st.mem src n
      .update (writeMem dst buf) <| .yield <|
        storageMemmoveProg fuel (dst + n) (src + n) (count - n)

/-- `macro_idx_set_data`. -/
def setDataProg (mh : Nat) (d : MacroIdxEntryData) : Prog MacroStore Unit :=
  .update (onIndex fun index => macroIdxSetData index mh d) <| .yield <| .done ()

/-- The loop of `macro_idx_remove`. -/
def removeLoopProg : Nat → Nat → Prog MacroStore Unit
  | 0, _ => .done ()
  | fuel + 1, i => .read fun st =>
    let tmp := if i = hw.macroIndexCount - 1 then emptyEntry else st.index (i + 1)
    .update (onIndex fun index => Function.update index i tmp) <|
      if tmp.key.head = noKey then .done () else .yield <| removeLoopProg fuel (i + 1)

/-- `macro_idx_remove`. -/
def removeProg (mi : Nat) : Prog MacroStore Unit := removeLoopProg hw (hw.macroIndexCount - mi) mi

/-- The loop of `macro_idx_create`. -/
def createLoopProg (key : MacroIdxKey) : Nat → Prog MacroStore Nat
  | 0 => .done 0
  | i + 1 => .read fun st =>
    let tmp := st.index i
    if 0 ≤ macroIdxCmp key.keys tmp.key.keys then .done (i + 1)
    else if tmp.key.head = noKey then createLoopProg key i
    else .update (onIndex fun index => Function.update index (i + 1) tmp) <| .yield <|
      createLoopProg key i

/-- `macro_idx_create`. -/
def createProg (key : MacroIdxKey) : Prog MacroStore (Option Nat) :=
  .read fun st =>
    if (st.index (hw.macroIndexCount - 1)).key.head ≠ noKey then .done none
    else (createLoopProg key (hw.macroIndexCount - 1)).bind fun r =>
      .update (onIndex fun index => Function.update index r { index r with key := key }) <|
        .yield <| .done (some r)

/-- The walk of `macro_idx_iterate` with `macro_shift_down_iterator`. -/
def shiftDownProg (offset len : Fin 65536) : Nat → Nat → Prog MacroStore Unit
  | 0, _ => .done ()
  | fuel + 1, i => .read fun st =>
    if (st.index i).key.head = noKey then .done ()
    else
      let d := macroIdxGetData st.index i
      let shifted : Prog MacroStore Unit :=
        match d.type with
        | .programEntry => .done ()
        | .macroEntry =>
          if d.data > offset then setDataProg i { d with data := d.data - len } else .done ()
      shifted.bind fun _ => shiftDownProg offset len fuel (i + 1)

/-- `delete_macro_data`. -/
def deleteProg (idxEntry : Nat) : Prog MacroStore Unit :=
  .read fun st =>
    let idxData := macroIdxGetData st.index idxEntry
    match idxData.type with
    | .programEntry => .done ()
    | .macroEntry =>
      let entryOffset := idxData.data
      let endOffset := storageReadShort st.mem macrosEndOffset
      let entryLen :=
        storageReadShort st.mem (macros entryOffset) + Fin.ofNat 65536 macroDataHeaderLen
      let restOffset := entryOffset + entryLen
      let restLen := endOffset - restOffset
      let moved : Prog MacroStore Unit :=
        if restLen ≠ 0 then
          (storageMemmoveProg ps restLen (macros entryOffset) (macros restOffset) restLen).bind
            fun _ => shiftDownProg entryOffset entryLen hw.macroIndexCount 0
        else .done ()
      moved.bind fun _ => storageWriteProg ps 2 macrosEndOffset (shortBytes (endOffset - entryLen))

/-- The second half of `macros_start_macro`, for the entry found or created. -/
def recordIntoProg (entry : Nat) : Prog MacroStore Bool :=
  .read fun st =>
    let data := storageReadShort st.mem macrosEndOffset
    (setDataProg entry ⟨.macroEntry, data⟩).bind fun _ =>
      .update (setRecordingState (some
        { macroData := macros data, cursor := eventsOf (macros data), indexEntry := entry })) <|
        .done true

/-- `macros_start_macro`. -/
def startProg (key : MacroIdxKey) : Prog MacroStore Bool :=
  .read fun st =>
    match macroIdxLookup hw st.index key with
    | some entry => (deleteProg hw ps entry).bind fun _ => recordIntoProg entry
    | none => (createProg hw key).bind fun
      | some entry => recordIntoProg entry
      | none => .update (setRecordingState none) <| .done false

/-- `macros_append`, while a recording is on. -/
def appendProg (event : HidKeycode) : Prog MacroStore Unit :=
  .read fun st =>
    match st.recordingState with
    | none => .done ()
    | some rs => (storageWriteProg ps 1 rs.cursor [event]).bind fun _ =>
      .update (setRecordingState (some { rs with cursor := rs.cursor + 1 })) <| .done ()

/-- `macros_commit_macro`. -/
def commitProg : Prog MacroStore Unit :=
  .read fun st =>
    match st.recordingState with
    | none => .done ()
    | some rs =>
      let macroLen : Fin 65536 := Fin.ofNat 65536 (rs.cursor - eventsOf rs.macroData)
      let stored : Prog MacroStore Unit :=
        if macroLen = 0 then removeProg hw rs.indexEntry
        else
          (storageWriteProg ps 2 rs.macroData (shortBytes macroLen)).bind fun _ => .read fun st =>
            let endOffset := storageReadShort st.mem macrosEndOffset
            storageWriteProg ps 2 macrosEndOffset
              (shortBytes (endOffset + (macroLen + Fin.ofNat 65536 macroDataHeaderLen)))
      stored.bind fun _ => .update (setRecordingState none) <| .done ()

/-- `macros_abort_macro`. -/
def abortProg : Prog MacroStore Unit :=
  .read fun st =>
    match st.recordingState with
    | none => .done ()
    | some rs => (removeProg hw rs.indexEntry).bind fun _ =>
      .update (setRecordingState none) <| .done ()

end Programs

/-! ## With nothing delivered -/

variable {hw : Hardware} {ps : PagedStorage} {st : MacroStore} {n : Nat} {recs : List Recorded}

theorem PagedStorage.pageRemaining_pos (ps : PagedStorage) (dst : Nat) : 0 < ps.pageRemaining dst :=
  Nat.sub_pos_of_lt (Nat.mod_lt dst ps.pos)

theorem storageWriteProg_run (ps : PagedStorage) : ∀ (fuel dst : Nat) (data : List Byte)
    (st : MacroStore), data.length ≤ fuel →
    (storageWriteProg ps fuel dst data).run st = ((), writeMem dst data st) := by
  have hnil : ∀ (dst : Nat) (st : MacroStore), writeMem dst [] st = st := fun dst st => by
    rw [writeMem, writeBytes_nil]
  intro fuel
  induction fuel with
  | zero =>
    intro dst data st hlen
    rw [List.length_eq_zero_iff.mp (Nat.le_zero.mp hlen), hnil]
    rfl
  | succ fuel ih =>
    intro dst data st hlen
    cases data with
    | nil =>
      rw [hnil]
      rfl
    | cons b data =>
      have hpos := ps.pageRemaining_pos dst
      obtain ⟨n, hn⟩ : ∃ n, min (b :: data).length (ps.pageRemaining dst) = n := ⟨_, rfl⟩
      have htake : ((b :: data).take n).length = n := by
        rw [List.length_take]
        omega
      show (storageWriteProg ps fuel (dst + min (b :: data).length (ps.pageRemaining dst))
        ((b :: data).drop (min (b :: data).length (ps.pageRemaining dst)))).run
          (writeMem dst ((b :: data).take (min (b :: data).length (ps.pageRemaining dst))) st) = _
      rw [hn, ih _ _ _ (by rw [List.length_drop]; simp only [List.length_cons] at *; omega)]
      conv_rhs => rw [← List.take_append_drop n (b :: data), writeMem, writeBytes_append, htake]
      rfl

theorem storageWriteProg_short (ps : PagedStorage) (dst : Nat) (v : Fin 65536) (st : MacroStore) :
    (storageWriteProg ps 2 dst (shortBytes v)).run st = ((), writeMem dst (shortBytes v) st) :=
  storageWriteProg_run ps 2 dst (shortBytes v) st (Nat.le_refl 2)

theorem storageMemmoveProg_run (ps : PagedStorage) : ∀ (fuel dst src count : Nat)
    (st : MacroStore), dst ≤ src → count ≤ fuel →
    (storageMemmoveProg ps fuel dst src count).run st =
      ((), { st with mem := memmove st.mem dst src count }) := by
  intro fuel
  induction fuel with
  | zero =>
    intro dst src count st _ hcount
    rw [Nat.le_zero.mp hcount, memmove_zero]
    rfl
  | succ fuel ih =>
    intro dst src count st hdown hcount
    cases count with
    | zero =>
      rw [memmove_zero]
      rfl
    | succ count =>
      have hpos := ps.pageRemaining_pos dst
      obtain ⟨n, hn⟩ : ∃ n, min (count + 1) (ps.pageRemaining dst) = n := ⟨_, rfl⟩
      show (storageMemmoveProg ps fuel (dst + min (count + 1) (ps.pageRemaining dst))
        (src + min (count + 1) (ps.pageRemaining dst))
        (count + 1 - min (count + 1) (ps.pageRemaining dst))).run
          (writeMem dst (readBytes st.mem src (min (count + 1) (ps.pageRemaining dst))) st) = _
      rw [hn, ih _ _ _ _ (by omega) (by omega)]
      rw [← memmove_piece st.mem hdown (show n ≤ count + 1 by omega)]
      rfl

theorem removeLoopProg_run (hw : Hardware) : ∀ (fuel i : Nat) (st : MacroStore),
    (removeLoopProg hw fuel i).run st = ((), onIndex (macroIdxRemoveLoop hw fuel i) st) := by
  intro fuel
  induction fuel with
  | zero => exact fun _ _ => rfl
  | succ fuel ih =>
    intro i st
    rw [removeLoopProg, Prog.run, Prog.run]
    obtain ⟨tmp, htmp⟩ : ∃ tmp, (if i = hw.macroIndexCount - 1 then emptyEntry
      else st.index (i + 1)) = tmp := ⟨_, rfl⟩
    have hloop : onIndex (macroIdxRemoveLoop hw (fuel + 1) i) st =
        onIndex (fun _ => if tmp.key.head = noKey then Function.update st.index i tmp
          else macroIdxRemoveLoop hw fuel (i + 1) (Function.update st.index i tmp)) st := by
      simp only [onIndex, macroIdxRemoveLoop, htmp]
    rw [hloop, htmp]
    split
    · rfl
    · rw [Prog.run, ih]
      rfl

theorem createLoopProg_run (key : MacroIdxKey) : ∀ (i : Nat) (st : MacroStore),
    (createLoopProg key i).run st =
      ((macroIdxCreateLoop key i st.index).1,
        { st with index := (macroIdxCreateLoop key i st.index).2 }) := by
  intro i
  induction i with
  | zero => exact fun _ => rfl
  | succ i ih =>
    intro st
    rw [createLoopProg, Prog.run, macroIdxCreateLoop]
    dsimp only
    split
    · rfl
    · split
      · exact ih st
      · rw [Prog.run, Prog.run, ih]
        rfl

theorem createProg_run (key : MacroIdxKey) :
    (createProg hw key).run st = match macroIdxCreate hw st.index key with
      | none => (none, st)
      | some (r, index) => (some r, { st with index := index }) := by
  rw [createProg, Prog.run, macroIdxCreate]
  split
  · rfl
  · rw [Prog.run_bind, createLoopProg_run]
    rfl

theorem shiftDownProg_run (offset len : Fin 65536) : ∀ (fuel i : Nat) (st : MacroStore),
    (shiftDownProg offset len fuel i).run st =
      ((), onIndex (macroIdxIterateLoop (macroShiftDownIterator offset len) fuel i) st) := by
  intro fuel
  induction fuel with
  | zero => exact fun _ _ => rfl
  | succ fuel ih =>
    intro i st
    rw [shiftDownProg, Prog.run]
    have hloop : onIndex (macroIdxIterateLoop (macroShiftDownIterator offset len) (fuel + 1) i) st =
        onIndex (fun _ => if (st.index i).key.head = noKey then st.index else
          macroIdxIterateLoop (macroShiftDownIterator offset len) fuel (i + 1)
            (macroShiftDownIterator offset len i st.index)) st := by
      simp only [onIndex, macroIdxIterateLoop]
    rw [hloop]
    dsimp only
    split
    · rfl
    · rw [Prog.run_bind, ih]
      cases htype : (macroIdxGetData st.index i).type with
      | programEntry =>
        simp only [macroShiftDownIterator, htype, Prog.run]
        rfl
      | macroEntry =>
        simp only [macroShiftDownIterator, htype]
        split <;> rfl

/-- Deleting moves the bytes down. -/
theorem deleteProg_run (h : StoreInv hw st.index st.mem n recs none) {i : Nat} (hi : i < n) :
    (deleteProg hw ps i).run st = ((), deleteMacroData hw st i) := by
  rw [deleteProg, Prog.run]
  by_cases hp : (st.index i).IsProgram
  · simp only [(macroIdxGetData_type st.index i).mpr hp, deleteMacroData_program hp]
    rfl
  · obtain ⟨pre, ev, post, offset, len, endOffset, hd⟩ := h.deletedRecord hi hp
    rw [@deleteMacroData_not_program hw st i _ _ _ hp hd.offset_eq hd.len_eq hd.end_eq]
    have hdown : macros offset.val ≤ macros (offset + len).val := by
      have := hd.rest_val
      have := hd.offset_val
      simp only [macros]
      omega
    simp only [macroIdxGetData_not_program hp, hd.offset_eq, hd.len_eq, hd.end_eq]
    rw [Prog.run_bind, storageWriteProg_short]
    split
    · rw [Prog.run_bind, storageMemmoveProg_run ps _ _ _ _ _ hdown le_rfl, shiftDownProg_run]
      rfl
    · rfl

theorem recordIntoProg_run (entry : Nat) :
    (recordIntoProg entry).run st =
      (true,
        { index := macroIdxSetData st.index entry
            ⟨.macroEntry, storageReadShort st.mem macrosEndOffset⟩
          mem := st.mem
          recordingState := some
            { macroData := macros (storageReadShort st.mem macrosEndOffset)
              cursor := eventsOf (macros (storageReadShort st.mem macrosEndOffset))
              indexEntry := entry } }) := rfl

/-- **Start**, undisturbed. -/
theorem startProg_run (h : StoreInv hw st.index st.mem n recs none) (t : Trigger) :
    (startProg hw ps t.key).run st = macrosStartMacro hw st t.key := by
  rw [startProg, Prog.run, macrosStartMacro, startEntry]
  cases hl : macroIdxLookup hw st.index t.key with
  | some entry =>
    have hi := ((macroIdxLookup_eq_some_iff h.inv t.key_head).mp hl).1
    dsimp only
    rw [Prog.run_bind, deleteProg_run h hi]
    exact recordIntoProg_run entry
  | none =>
    dsimp only
    rw [Prog.run_bind, createProg_run]
    cases macroIdxCreate hw st.index t.key with
    | none => rfl
    | some res => exact recordIntoProg_run res.1

/-- **Append**, undisturbed. -/
theorem appendProg_run (event : HidKeycode) :
    (appendProg ps event).run st = ((), macrosAppend st event) := by
  rw [appendProg, Prog.run]
  cases hs : st.recordingState with
  | none => simp only [macrosAppend, hs, Prog.run]
  | some rs =>
    simp only [macrosAppend, hs]
    rw [Prog.run_bind, storageWriteProg_run ps 1 _ [event] _ (Nat.le_refl 1)]
    rfl

/-- **Commit**, undisturbed. -/
theorem commitProg_run : (commitProg hw ps).run st = ((), macrosCommitMacro hw st) := by
  rw [commitProg, Prog.run]
  cases hs : st.recordingState with
  | none => simp only [macrosCommitMacro, hs, Prog.run]
  | some rs =>
    simp only [macrosCommitMacro, hs]
    rw [Prog.run_bind]
    split
    · rw [removeProg, removeLoopProg_run]
      rfl
    · rw [Prog.run_bind, storageWriteProg_short, Prog.run, storageWriteProg_short]
      rfl

/-- **Abort**, undisturbed. -/
theorem abortProg_run : (abortProg hw).run st = ((), macrosAbortMacro hw st) := by
  rw [abortProg, Prog.run]
  cases hs : st.recordingState with
  | none => simp only [macrosAbortMacro, hs, Prog.run]
  | some rs =>
    simp only [macrosAbortMacro, hs]
    rw [Prog.run_bind, removeProg, removeLoopProg_run]
    rfl

end KeyboardFirmware
