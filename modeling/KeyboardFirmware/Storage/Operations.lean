/-
  The operations of `config.c` and `macro.c` on a board whose saved layouts and macros lie in the SPI
  EEPROM (`k80cs.h`, `k84cs.h`).

  The operations are written as the source has them, with the waits where it has them: reads do not
  wait, so an operation has to, between a write and the next read.  The index of the macros and the
  live layout are in the `avr_eeprom`, whose functions are those of `macro_index.c` and need no wait.
  A keep-alive serves no request here, so it leaves no trace.

  No operation breaks the protocol of the chip, from any contents of the stores and for any length of
  the write cycles (`storeOperation_orderly`).
-/
import KeyboardFirmware.Storage.SpiEeprom

namespace KeyboardFirmware.Spi

open Std.Do

set_option mvcgen.warning false

/-- Where the arrays in the SPI EEPROM lie. -/
structure Places where
  /-- `macros_storage`. -/
  macrosStorage : Addr
  /-- `saved_key_mapping_indices`. -/
  savedKeyMappingIndices : Addr
  /-- `saved_key_mappings`. -/
  savedKeyMappings : Addr

/-- `AS_SHORT`: the first byte is the low one. -/
def asShort (first second : Byte) : Fin 65536 := ⟨first.val + 256 * second.val, twoBytes_lt first second⟩

namespace Places

variable (places : Places)

/-- `&saved_key_mapping_indices[num].start`, which is the address of the entry, and `.end`. -/
def startOf (num : Nat) : Addr := places.savedKeyMappingIndices + Fin.ofNat 65536 (2 * num)
def endOf (num : Nat) : Addr := places.startOf num + 1

/-- `&saved_key_mappings[i]`. -/
def keyMapping (i : Addr) : Addr := places.savedKeyMappings + 2 * i

/-- `macros_end_offset`. -/
def macrosEndOffset : Addr := places.macrosStorage

/-- `&macros[offset]`: the macro data follow the end offset. -/
def macros (offset : Fin 65536) : Addr := places.macrosStorage + 2 + offset

end Places

/-! ## `config.c` -/

section Config

variable (arch : Arch) (hw : LayoutHardware) (places : Places)

/-- `config_delete_layout`. -/
def configDeleteLayout (num : Byte) : StateM Device Outcome := do
  if num.val ≥ hw.numKeyMappingIndices then return .error msgNoLayout
  let start ← spiEepromReadByte arch (places.startOf num)
  if start = noKey then return .error msgNoLayout
  let end_ ← spiEepromReadByte arch (places.endOf num)
  let length := end_ - start + 1
  -- clear this entry
  let _ ← spiEepromWriteShort arch (places.startOf num) 0xffff
  let mut maxEnd := end_
  for i in List.range hw.numKeyMappingIndices do
    spiEepromWaitForLastWriteEnd arch
    let iStart ← spiEepromReadByte arch (places.startOf i)
    if iStart ≠ noKey ∧ iStart > end_ then
      let iEnd ← spiEepromReadByte arch (places.endOf i)
      if iEnd > maxEnd then maxEnd := iEnd
      let _ ← spiEepromWriteShort arch (places.startOf i) (asShort (iStart - length) (iEnd - length))
  -- and move down the data
  if end_ < maxEnd then
    spiEepromWaitForLastWriteEnd arch
    let next := Fin.ofNat 65536 (end_.val + 1)
    let _ ← spiEepromMemmove arch (places.keyMapping (next - Fin.ofNat 65536 length.val))
      (places.keyMapping next) (2 * (maxEnd.val - end_.val))
  spiEepromWaitForLastWriteEnd arch
  return .ok ()

/-- The loop of `config_save_layout` over the logical keys, with `k` of them left from `l` on; `none`
    when there is no space. -/
def configSaveKeys : Nat → Nat → Byte → StateM Device (Option Byte)
  | 0, _, cursor => return some cursor
  | k + 1, l, cursor => do
    let h := (← get).logicalToHidMap l
    if h ≠ hw.logicalToHidMapDefault l then
      if cursor.val ≥ hw.savedMappingCount - 1 then return none
      let _ ← spiEepromWriteShort arch (places.keyMapping (Fin.ofNat 65536 cursor.val))
        (asShort (Fin.ofNat 256 l) h)
      spiEepromWaitForLastWriteEnd arch
      configSaveKeys k (l + 1) (cursor + 1)
    else configSaveKeys k (l + 1) cursor

/-- `config_save_layout`. -/
def configSaveLayout (num : Byte) : StateM Device Outcome := do
  if num.val ≥ hw.numKeyMappingIndices then return .error msgNoLayout
  -- remove old layout
  let _ ← configDeleteLayout arch hw places num
  -- find last offset
  let mut oldEnd : Int := -1
  for i in List.range hw.numKeyMappingIndices do
    let iStart ← spiEepromReadByte arch (places.startOf i)
    if iStart ≠ noKey then
      let iEnd ← spiEepromReadByte arch (places.endOf i)
      if iEnd.val > oldEnd then oldEnd := iEnd.val
  let start : Byte := Fin.ofNat 256 (oldEnd + 1).toNat
  match ← configSaveKeys arch hw places hw.numLogicalKeys 0 start with
  | none => return .error "Fail: no space"
  | some cursor =>
    if start ≠ cursor then
      let _ ← spiEepromWriteShort arch (places.startOf num) (asShort start (cursor - 1))
      return .ok ()
    else return .error "No change"

end Config

/-! ## `macro.c` -/

section Macro

variable (arch : Arch) (hw : Hardware) (places : Places)

/-- `macro_storage_read_var` of a short; `none` is the way to `err`. -/
def macroStorageReadVar (ptr : Addr) : StateM Device (Option (Fin 65536)) := do
  let buf ← spiEepromRead arch ptr 2
  if buf.length ≠ 2 then return none
  return some (asShort (buf.getD 0 0) (buf.getD 1 0))

/-- `macro_storage_write_var`; `false` is the way to `err`. -/
def macroStorageWriteVar (ptr : Addr) (var : List Byte) : StateM Device Bool := do
  let written ← spiEepromWrite arch ptr var
  return written.toInt = var.length

/-- The loop of `macros_reset_defaults`: the number of default macros written. -/
def macrosResetLoop : List MacroDefInfo → Nat → StateM Device Nat
  | [], i => return i
  | info :: infos, i => do
    let tmp := shortBytes (Fin.ofNat 65536 defHkeysLen) ++ info.hkeys
    spiEepromWaitForLastWriteEnd arch
    let written ← spiEepromWrite arch (places.macros (Fin.ofNat 65536 (i * tmp.length))) tmp
    if written.toInt ≠ tmp.length then return i
    macrosResetLoop infos (i + 1)

/-- `macros_reset_defaults`. -/
def macrosResetDefaults : StateM Device Unit := do
  let i ← macrosResetLoop arch places hw.macroDefInfos 0
  spiEepromWaitForLastWriteEnd arch
  let _ ← spiEepromWriteShort arch places.macrosEndOffset
    (Fin.ofNat 65536 (i * (macroDataHeaderLen + defHkeysLen)))

/-- `delete_macro_data`. -/
def deleteMacroData (idxEntry : Nat) : StateM Device Bool := do
  let idxData := macroIdxGetData (← get).index idxEntry
  -- no data to delete, trivial success
  if idxData.type ≠ .macroEntry then return true
  let entryOffset := idxData.data
  match ← macroStorageReadVar arch places.macrosEndOffset with
  | none => return false
  | some endOffset =>
    match ← macroStorageReadVar arch (places.macros entryOffset) with
    | none => return false
    | some entryLen =>
      let entryLen := entryLen + Fin.ofNat 65536 macroDataHeaderLen
      let restOffset := entryOffset + entryLen
      let restLen := endOffset - restOffset
      if restLen ≠ 0 then
        let err ← spiEepromMemmove arch (places.macros entryOffset) (places.macros restOffset) restLen.val
        if err ≠ spiEepromOk then return false
        modify fun d =>
          { d with index := macroIdxIterate hw (macroShiftDownIterator entryOffset entryLen) d.index }
      spiEepromWaitForLastWriteEnd arch
      macroStorageWriteVar arch places.macrosEndOffset (shortBytes (endOffset - entryLen))

/-- A cleared recording state. -/
def noRecording : RecordingState := ⟨0, 0, 0⟩

/-- `&macro->events[0]`: the events follow the length. -/
def eventsOf (macroData : Addr) : Addr := macroData + Fin.ofNat 65536 macroDataHeaderLen

/-- The entry `macros_start_macro` records into; `none` is the way to `err`. -/
def startEntry (key : MacroIdxKey) : StateM Device (Option Nat) := do
  match macroIdxLookup hw (← get).index key with
  | some entry =>
    if !(← deleteMacroData arch hw places entry) then return none
    spiEepromWaitForLastWriteEnd arch
    return some entry
  | none =>
    match macroIdxCreate hw (← get).index key with
    | none => return none
    | some (entry, index) =>
      modify fun d => { d with index := index }
      return some entry

/-- `macros_start_macro`. -/
def macrosStartMacro (key : MacroIdxKey) : StateM Device Bool := do
  match ← startEntry arch hw places key with
  | none =>
    modify fun d => { d with recordingState := noRecording }
    return false
  | some entry =>
    match ← macroStorageReadVar arch places.macrosEndOffset with
    | none =>
      modify fun d => { d with recordingState := noRecording }
      return false
    | some data =>
      let macroData := places.macros data
      modify fun d =>
        { d with
          index := macroIdxSetData d.index entry ⟨.macroEntry, data⟩
          recordingState := ⟨macroData, eventsOf macroData, entry⟩ }
      return true

/-- `macros_commit_macro`. -/
def macrosCommitMacro : StateM Device Unit := do
  let rs := (← get).recordingState
  -- cannot commit no macro
  if rs.macroData = 0 then return
  let macroLen := rs.cursor - eventsOf rs.macroData
  if macroLen = 0 then
    modify fun d => { d with index := macroIdxRemove hw d.index rs.indexEntry }
  else
    if !(← macroStorageWriteVar arch rs.macroData (shortBytes macroLen)) then return
    spiEepromWaitForLastWriteEnd arch
    match ← macroStorageReadVar arch places.macrosEndOffset with
    | none => return
    | some endOffset =>
      let endOffset := endOffset + (macroLen + Fin.ofNat 65536 macroDataHeaderLen)
      if !(← macroStorageWriteVar arch places.macrosEndOffset (shortBytes endOffset)) then return
  modify fun d => { d with recordingState := noRecording }

/-- `macros_append`. -/
def macrosAppend (event : HidKeycode) : StateM Device Bool := do
  let cursor := (← get).recordingState.cursor
  modify fun d => { d with recordingState := { d.recordingState with cursor := cursor + 1 } }
  macroStorageWriteVar arch cursor [event]

end Macro

/-! ## The contracts -/

section Contracts

variable {arch : Arch} {lhw : LayoutHardware} {hw : Hardware} {places : Places}

/-- A delete begins and ends idle: inside the scan of the slots, every round begins with a wait. -/
@[spec]
theorem configDeleteLayout_spec (num : Byte) :
    ⦃fun d => ⌜Idle d⌝⦄ configDeleteLayout arch lhw places num ⦃⇓ _ d => ⌜Idle d⌝⦄ := by
  mvcgen [configDeleteLayout]
  case inv1 => exact ⇓ _ d => ⌜Ready d⌝
  all_goals first | assumption | exact Idle.ready (by assumption)

/-- The keys of a save: the wait is behind the write. -/
@[spec]
theorem configSaveKeys_spec (k l : Nat) (cursor : Byte) :
    ⦃fun d => ⌜Idle d⌝⦄ configSaveKeys arch lhw places k l cursor ⦃⇓ _ d => ⌜Idle d⌝⦄ := by
  induction k generalizing l cursor with
  | zero => mvcgen [configSaveKeys]
  | succ k ih =>
    mvcgen [configSaveKeys, ih]
    all_goals first | assumption | exact Idle.ready (by assumption)

theorem configSaveLayout_spec (num : Byte) :
    ⦃fun d => ⌜Idle d⌝⦄ configSaveLayout arch lhw places num ⦃⇓ _ d => ⌜Ready d⌝⦄ := by
  mvcgen [configSaveLayout]
  -- the search for the last position only reads
  case inv1 => exact ⇓ _ d => ⌜Idle d⌝
  all_goals first | assumption | exact Idle.ready (by assumption)

@[spec]
theorem readVar_spec (ptr : Addr) :
    ⦃fun d => ⌜Idle d⌝⦄ macroStorageReadVar arch ptr ⦃⇓ _ d => ⌜Idle d⌝⦄ := by
  mvcgen [macroStorageReadVar]

@[spec]
theorem writeVar_spec (ptr : Addr) (var : List Byte) :
    ⦃fun d => ⌜Ready d⌝⦄ macroStorageWriteVar arch ptr var ⦃⇓ _ d => ⌜Ready d⌝⦄ := by
  mvcgen [macroStorageWriteVar]

@[spec]
theorem macrosResetLoop_spec (infos : List MacroDefInfo) (i : Nat) :
    ⦃fun d => ⌜Ready d⌝⦄ macrosResetLoop arch places infos i ⦃⇓ _ d => ⌜Ready d⌝⦄ := by
  induction infos generalizing i with
  | nil => mvcgen [macrosResetLoop]
  | cons info infos ih =>
    mvcgen [macrosResetLoop, ih]
    all_goals first | assumption | exact Idle.ready (by assumption)

theorem macrosResetDefaults_spec :
    ⦃fun d => ⌜Ready d⌝⦄ macrosResetDefaults arch hw places ⦃⇓ _ d => ⌜Ready d⌝⦄ := by
  mvcgen [macrosResetDefaults]
  all_goals first | assumption | exact Idle.ready (by assumption)

/-- A deletion begins idle; it may end with a write cycle on. -/
@[spec]
theorem deleteMacroData_spec (idxEntry : Nat) :
    ⦃fun d => ⌜Idle d⌝⦄ deleteMacroData arch hw places idxEntry ⦃⇓ _ d => ⌜Ready d⌝⦄ := by
  mvcgen [deleteMacroData]
  all_goals first | assumption | exact Idle.ready (by assumption)

theorem macrosStartMacro_spec (key : MacroIdxKey) :
    ⦃fun d => ⌜Idle d⌝⦄ macrosStartMacro arch hw places key ⦃⇓ _ d => ⌜Ready d⌝⦄ := by
  mvcgen [macrosStartMacro, startEntry]
  all_goals first | assumption | exact Idle.ready (by assumption)

theorem macrosCommitMacro_spec :
    ⦃fun d => ⌜Idle d⌝⦄ macrosCommitMacro arch hw places ⦃⇓ _ d => ⌜Ready d⌝⦄ := by
  mvcgen [macrosCommitMacro]
  all_goals first | assumption | exact Idle.ready (by assumption)

theorem macrosAppend_spec (event : HidKeycode) :
    ⦃fun d => ⌜Ready d⌝⦄ macrosAppend arch event ⦃⇓ _ d => ⌜Ready d⌝⦄ := by
  mvcgen [macrosAppend]

end Contracts

/-! ## The operations of the stores -/

/-- The operations, with their arguments. -/
inductive Operation where
  | saveLayout (num : Byte)
  | deleteLayout (num : Byte)
  | startMacro (key : MacroIdxKey)
  | append (event : HidKeycode)
  | commitMacro
  | resetDefaults

/-- An operation, without what it returns. -/
def Operation.run (arch : Arch) (lhw : LayoutHardware) (hw : Hardware) (places : Places) :
    Operation → StateM Device Unit
  | .saveLayout num => do let _ ← configSaveLayout arch lhw places num
  | .deleteLayout num => do let _ ← configDeleteLayout arch lhw places num
  | .startMacro key => do let _ ← macrosStartMacro arch hw places key
  | .append event => do let _ ← macrosAppend arch event
  | .commitMacro => macrosCommitMacro arch hw places
  | .resetDefaults => macrosResetDefaults arch hw places

theorem Operation.run_spec (arch : Arch) (lhw : LayoutHardware) (hw : Hardware) (places : Places)
    (op : Operation) :
    ⦃fun d => ⌜Idle d⌝⦄ op.run arch lhw hw places ⦃⇓ _ d => ⌜Ready d⌝⦄ := by
  intro d h
  cases op with
  | saveLayout num => exact configSaveLayout_spec num d h
  | deleteLayout num => exact Idle.ready (configDeleteLayout_spec num d h)
  | startMacro key => exact macrosStartMacro_spec key d h
  | append event => exact macrosAppend_spec event d h.ready
  | commitMacro => exact macrosCommitMacro_spec d h
  | resetDefaults => exact macrosResetDefaults_spec d h.ready

/-- **The protocol of the chip**: an operation that begins with the chip deselected and idle sends only
    what the protocol allows, and leaves the chip deselected. -/
theorem storeOperation_orderly (arch : Arch) (lhw : LayoutHardware) (hw : Hardware) (places : Places)
    (op : Operation) (d : Device) (hphase : d.chip.phase = .deselected) (hidle : d.chip.cycle = none)
    (hsent : d.sent = []) :
    Orderly (op.run arch lhw hw places d).2.sent ∧
      (op.run arch lhw hw places d).2.chip.phase = .deselected := by
  have hready : Idle d := ⟨hphase, hidle, hsent ▸ orderly_nil⟩
  obtain ⟨cycle, hend⟩ := op.run_spec arch lhw hw places d hready
  exact ⟨hend.orderly, hend.phase⟩

/-- An erased device, whose write cycles last three status reads. -/
def erased : Device where
  chip := { memory := fun _ => 0xff, phase := .deselected, writeEnabled := false, cycle := none }
  cycles := fun _ => 3
  sent := []
  index := fun _ => emptyEntry
  logicalToHidMap := k80csLayout.logicalToHidMapDefault
  recordingState := noRecording
  storageErrno := spiEepromOk

theorem storeOperation_orderly_start :
    Orderly (((Operation.startMacro emptyKey).run .avr8 k80csLayout k80cs ⟨0, 1024, 1044⟩ erased).2.sent) ∧
      ((Operation.startMacro emptyKey).run .avr8 k80csLayout k80cs ⟨0, 1024, 1044⟩ erased).2.chip.phase =
        .deselected :=
  storeOperation_orderly .avr8 k80csLayout k80cs ⟨0, 1024, 1044⟩ (.startMacro emptyKey) erased rfl rfl rfl

end KeyboardFirmware.Spi
