/-
  `macro.c`: recording macros into the macro storage.

  The storage is a memory of bytes: the 16-bit end offset at address 0, the macro data behind it.
  `MacroStore` is everything the recording functions read and write, the index, the storage and
  the recording state, and each function takes it to the next one.  Storage operations succeed, so
  the `goto err` paths behind them are not there; the paths where a function refuses by itself are
  (`macrosStartMacro` on a full index, `macrosCommitMacro` with nothing recorded).
-/
import KeyboardFirmware.Lib.Memory
import KeyboardFirmware.Macro.MacroIndex

namespace KeyboardFirmware

open Lib

/-- The bytes of a storage, from its first address on. -/
abbrev Storage := Nat → Byte

/-- The two bytes of a short, low byte first. -/
def shortBytes (v : Fin 65536) : List Byte := [Fin.ofNat 256 v.val, Fin.ofNat 256 (v.val / 256)]

/-- `storage_read_short`. -/
def storageReadShort (mem : Storage) (a : Nat) : Fin 65536 :=
  ⟨(mem a).val + 256 * (mem (a + 1)).val, by omega⟩

/-- `storage_write_short`. -/
def storageWriteShort (mem : Storage) (a : Nat) (v : Fin 65536) : Storage :=
  writeBytes mem a (shortBytes v)

/-- `macros_end_offset`: where the end offset is stored. -/
def macrosEndOffset : Nat := 0

/-- `&macros[offset]`: the macro data follow the end offset. -/
def macros (offset : Nat) : Nat := 2 + offset

/-- `_macro_recording_state`: the address of the macro (`macro`), the address the next event goes to, and
    the position of the index entry.  `none` is the cleared state. -/
structure RecordingState where
  macroData : Nat
  cursor : Nat
  indexEntry : Nat

/-- What the recording functions work on. -/
structure MacroStore where
  index : MacroIndex
  mem : Storage
  recordingState : Option RecordingState

/-- `&macro->events[0]`: the events follow the length. -/
def eventsOf (macroData : Nat) : Nat := macroData + macroDataHeaderLen

variable (hw : Hardware)

/-- One round of `macros_reset_defaults`: write the record of a default macro. -/
def resetMacroRound (mem : Storage) (d : MacroDefInfo × Nat) : Storage :=
  writeBytes mem (macros (d.2 * (macroDataHeaderLen + defHkeysLen)))
    (shortBytes (Fin.ofNat 65536 defHkeysLen) ++ d.1.hkeys)

/-- `macros_reset_defaults`. -/
def macrosResetDefaults (mem : Storage) : Storage :=
  storageWriteShort (hw.macroDefInfos.zipIdx.foldl resetMacroRound mem) macrosEndOffset
    (Fin.ofNat 65536 (hw.macroDefInfos.length * (macroDataHeaderLen + defHkeysLen)))

/-- A store after a full reset. -/
def MacroStore.reset (st : MacroStore) : MacroStore :=
  { index := macroIdxResetDefaults hw st.index
    mem := macrosResetDefaults hw st.mem
    recordingState := none }

/-- `macro_shift_down_iterator`, for the removed range from `offset` on of length `len`. -/
def macroShiftDownIterator (offset len : Fin 65536) (entry : Nat) (index : MacroIndex) :
    MacroIndex :=
  let d := macroIdxGetData index entry
  match d.type with
  | .programEntry => index
  | .macroEntry =>
    if d.data > offset then macroIdxSetData index entry { d with data := d.data - len } else index

/-- `delete_macro_data`. -/
def deleteMacroData (st : MacroStore) (idxEntry : Nat) : MacroStore :=
  let idxData := macroIdxGetData st.index idxEntry
  match idxData.type with
  | .programEntry => st
  | .macroEntry =>
    let entryOffset := idxData.data
    let endOffset := storageReadShort st.mem macrosEndOffset
    let entryLen :=
      storageReadShort st.mem (macros entryOffset) + Fin.ofNat 65536 macroDataHeaderLen
    let restOffset := entryOffset + entryLen
    let restLen := endOffset - restOffset
    let st :=
      if restLen ≠ 0 then
        { st with
          mem := memmove st.mem (macros entryOffset) (macros restOffset) restLen
          index := macroIdxIterate hw (macroShiftDownIterator entryOffset entryLen) st.index }
      else st
    { st with mem := storageWriteShort st.mem macrosEndOffset (endOffset - entryLen) }

/-- The entry `macros_start_macro` records into: the one already there, with its data deleted, or
    a new one; `none` when the index is full. -/
def startEntry (st : MacroStore) (key : MacroIdxKey) : Option (Nat × MacroStore) :=
  match macroIdxLookup hw st.index key with
  | some entry => some (entry, deleteMacroData hw st entry)
  | none =>
    match macroIdxCreate hw st.index key with
    | some (entry, index) => some (entry, { st with index := index })
    | none => none

/-- `macros_start_macro`; the flag tells whether a recording was started. -/
def macrosStartMacro (st : MacroStore) (key : MacroIdxKey) : Bool × MacroStore :=
  match startEntry hw st key with
  | none => (false, { st with recordingState := none })
  | some (entry, st) =>
    let data := storageReadShort st.mem macrosEndOffset
    (true,
      { index := macroIdxSetData st.index entry ⟨.macroEntry, data⟩
        mem := st.mem
        recordingState := some
          { macroData := macros data, cursor := eventsOf (macros data), indexEntry := entry } })

/-- `macros_append`.  The keyboard calls it (and abort) only while a recording is on; the cleared
    state, where the C code would write through a null pointer, is left alone. -/
def macrosAppend (st : MacroStore) (event : HidKeycode) : MacroStore :=
  match st.recordingState with
  | none => st
  | some rs =>
    { st with
      mem := writeBytes st.mem rs.cursor [event]
      recordingState := some { rs with cursor := rs.cursor + 1 } }

/-- `macros_commit_macro`. -/
def macrosCommitMacro (st : MacroStore) : MacroStore :=
  match st.recordingState with
  | none => st
  | some rs =>
    let macroLen : Fin 65536 := Fin.ofNat 65536 (rs.cursor - eventsOf rs.macroData)
    if macroLen = 0 then
      { st with index := macroIdxRemove hw st.index rs.indexEntry, recordingState := none }
    else
      let mem := storageWriteShort st.mem rs.macroData macroLen
      let endOffset := storageReadShort mem macrosEndOffset
      let endOffset := endOffset + (macroLen + Fin.ofNat 65536 macroDataHeaderLen)
      { st with mem := storageWriteShort mem macrosEndOffset endOffset, recordingState := none }

/-- `macros_abort_macro`, for a recording that was started. -/
def macrosAbortMacro (st : MacroStore) : MacroStore :=
  match st.recordingState with
  | none => st
  | some rs =>
    { st with index := macroIdxRemove hw st.index rs.indexEntry, recordingState := none }

/-- The events played back for a macro at `offset` (`macros_start_playback`,
    `macros_fill_next_report`): as many as its length says. -/
def macroEvents (mem : Storage) (offset : Nat) : List HidKeycode :=
  readBytes mem (eventsOf (macros offset)) (storageReadShort mem (macros offset))

/-- What a trigger stands for. -/
inductive TriggerContents where
  | program (data : Fin 65536)
  | events (l : List HidKeycode)

/-- What a key leads to: the program, or the events of the macro, of the entry looked up. -/
def triggerContents (st : MacroStore) (key : MacroIdxKey) : Option TriggerContents :=
  (macroIdxLookup hw st.index key).map fun entry =>
    let d := macroIdxGetData st.index entry
    match d.type with
    | .programEntry => .program d.data
    | .macroEntry => .events (macroEvents st.mem d.data)

end KeyboardFirmware
