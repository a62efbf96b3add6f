/-
  `keystate.c`: from matrix readings to the table of held keys, the layer and the change events.

  A bitfield over the physical keys is a function to `Bool`; the loops over its words and bits are
  walks over the key codes in ascending order.  What `keystate_update` reads from outside, the
  stored debounce length, the mapping and the matrix columns, is one `Scan`.  The calls of the
  change hook are the list of events an update returns; the buzzer is left out.
-/
import KeyboardFirmware.Macro.Hardware
import Mathlib.Logic.Function.Basic

namespace KeyboardFirmware

/-- `MAX_DEBOUNCE_LEN`. -/
def maxDebounceLen : Nat := 8

/-- `KEYSTATE_COUNT`: the number of keys tracked at once. -/
def keystateCount : Nat := 14

/-! ## The special codes -/

/-- `SPECIAL_HID_KEY_LAYER_LOCK`. -/
def layerLock : HidKeycode := 0xFA
/-- `SPECIAL_HID_KEY_KEYPAD_SHIFT`. -/
def keypadShift : HidKeycode := 0xFB
/-- `SPECIAL_HID_KEY_FUNCTION_SHIFT`. -/
def functionShift : HidKeycode := 0xFC
/-- `SPECIAL_HID_KEY_MACRO_SHIFT`. -/
def macroShift : HidKeycode := 0xFD
/-- `SPECIAL_HID_KEY_PROGRAM`. -/
def programKey : HidKeycode := 0xFE

/-- `SPECIAL_HID_KEY_NOREMAP`. -/
def NoRemap (k : HidKeycode) : Prop := k ≥ layerLock ∧ k ≠ noKey

instance (k : HidKeycode) : Decidable (NoRemap k) := inferInstanceAs (Decidable (_ ∧ _))

/-- `is_hid_key_to_notify_about`: the layer lock and the layer shifts stay in `keystate.c`. -/
def isHidKeyToNotifyAbout (k : HidKeycode) : Bool := k < layerLock || k ≥ macroShift

/-! ## The hardware -/

/-- The constants of a hardware variant that the key states depend on. -/
structure KeystateHardware where
  /-- `MATRIX_ROWS`. -/
  matrixRows : Nat
  /-- `MATRIX_COLS`. -/
  matrixCols : Nat
  /-- `matrix_to_logical_map`. -/
  matrixToLogicalMap : Nat → Nat → LogicalKeycode
  /-- `KEYPAD_LAYER_SIZE`. -/
  keypadLayerSize : Nat
  size_pos : 0 < keypadLayerSize
  /-- The bits of the bitfields are numbered by `uint8_t`, and none of them is `NO_KEY`. -/
  size_le : keypadLayerSize ≤ 248
  map_valid : ∀ row < matrixRows, ∀ col < matrixCols, matrixToLogicalMap row col = noKey ∨
    (matrixToLogicalMap row col).val < keypadLayerSize

/-- `matrix_to_logical_map` of `k80cs.c`. -/
def k80csMatrix : List (List LogicalKeycode) := [
  [66, 68, 69, 72, 2], [52, 53, 54, 67, 70], [34, 23, 10, 5, 71], [33, 21, 9, 25, 51],
  [32, 8, 7, 6, 50], [31, 26, 22, 27, 49], [30, 20, 4, 29, 48], [44, 45, 46, 47, 0],
  [3, 79, 76, 75, 73], [77, 74, 65, 64, 63], [78, 17, 11, 28, 35], [62, 16, 13, 24, 36],
  [61, 41, 14, 12, 37], [60, 42, 15, 18, 38], [59, 43, 40, 19, 39], [1, 58, 57, 56, 55]]

/-- The K80CS. -/
def k80csKeystate : KeystateHardware where
  matrixRows := 16
  matrixCols := 5
  matrixToLogicalMap := fun row col => (k80csMatrix.getD row []).getD col noKey
  keypadLayerSize := 80
  size_pos := by decide
  size_le := by decide
  map_valid := by decide +kernel

/-- What one call of `keystate_update` reads. -/
structure Scan where
  /-- `config_get_debounce_len`. -/
  debounceLen : Nat
  len_pos : 0 < debounceLen
  len_le : debounceLen ≤ maxDebounceLen
  /-- `config_get_definition`. -/
  definition : LogicalKeycode → HidKeycode
  /-- `matrix_read_column`, in the selected row. -/
  readColumn : Nat → Nat → Bool

/-! ## The state -/

/-- `key_state`. -/
structure KeyState where
  pKey : LogicalKeycode
  prevState : Bool
  state : Bool
  hidden : Bool
  deriving DecidableEq

/-- `empty_key_state`. -/
def emptyKeyState : KeyState := ⟨noKey, false, false, false⟩

/-- The numbers of layers go through this instance. -/
instance layerNeZero : NeZero 64 := ⟨by decide⟩

/-- `layer_t`. -/
structure Layer where
  /-- The base layer is forced. -/
  base : Bool
  lock : Bool
  id : Fin 64
  deriving DecidableEq

/-- The variables of `keystate.c`.  `debounced_on_bitfield` is left out: it is written in every
    update before it is read. -/
structure Keystate where
  keyStates : List KeyState
  keyPressCount : Byte
  keyPressCounter : Fin 65536
  prevLayer : Layer
  layer : Layer
  activeDebounceIndex : Nat
  debounceBitfields : Nat → LogicalKeycode → Bool
  debouncedBitfield : LogicalKeycode → Bool

/-- The state after `keystate_init`. -/
def keystateInit : Keystate where
  keyStates := List.replicate keystateCount emptyKeyState
  keyPressCount := 0
  keyPressCounter := 0
  prevLayer := ⟨false, false, 0⟩
  layer := ⟨false, false, 0⟩
  activeDebounceIndex := 0
  debounceBitfields := fun _ _ => false
  debouncedBitfield := fun _ => false

/-- `keystate_get_layer_id`, of either of the two layers. -/
def layerId (layer : Layer) : Nat := if layer.base then 0xff else layer.id

/-- `keycode_type`. -/
inductive KeycodeType
  | physical
  | logical
  | hid
  deriving DecidableEq

variable (hw : KeystateHardware)

/-- The logical key of a slot: `extract_keycode` with `LOGICAL`. -/
def logicalKey (layer : Layer) (pKey : LogicalKeycode) : LogicalKeycode :=
  let layerId : Nat := if layer.base then 0 else layer.id
  Fin.ofNat 256 (pKey.val + layerId * hw.keypadLayerSize)

/-- `extract_keycode`. -/
def extractKeycode (definition : LogicalKeycode → HidKeycode) (layer : Layer) (key : KeyState) :
    KeycodeType → Byte
  | .physical => key.pKey
  | .logical => logicalKey hw layer key.pKey
  | .hid => definition (logicalKey hw layer key.pKey)

/-! ## Scanning and debouncing -/

/-- The matrix scan: the keys that are read as pressed. -/
def scanMatrix (readColumn : Nat → Nat → Bool) (pKey : LogicalKeycode) : Bool :=
  (List.range hw.matrixRows).any fun row => (List.range hw.matrixCols).any fun col =>
    hw.matrixToLogicalMap row col = pKey && pKey ≠ noKey && readColumn row col

/-- The debounced bit of a key, from its old value and its bits in the last scans. -/
def debounce (old allTimeActive anyTimeActive : Bool) : Bool :=
  (old || allTimeActive) && anyTimeActive

/-- The keys in the order of the bits of a bitfield. -/
def bitKeys : List LogicalKeycode :=
  (List.range (8 * ((hw.keypadLayerSize + 7) / 8))).map (Fin.ofNat 256)

/-! ## The slots -/

/-- The first pass over the table: a released key is marked for removal. -/
def markReleased (debounced : LogicalKeycode → Bool) (key : KeyState) : KeyState :=
  if key.pKey = noKey then key
  else if !debounced key.pKey then { key with state := false }
  else key

/-- The new keys go to the free slots, the nearest one first.  The second component is what the loop
    adds to `key_press_counter`; the key that finds no free slot is still counted, and ends it. -/
def recordKeys : List LogicalKeycode → List KeyState → List KeyState × Nat
  | [], slots => (slots, 0)
  | _ :: _, [] => ([], 1)
  | pKey :: pKeys, key :: slots =>
    if key.pKey ≠ noKey then
      let rest := recordKeys (pKey :: pKeys) slots
      (key :: rest.1, rest.2)
    else
      let rest := recordKeys pKeys slots
      ({ key with pKey := pKey, state := true } :: rest.1, rest.2 + 1)

/-! ## The layer -/

/-- `update_layer`. -/
def updateLayer (layer : Layer) (key : HidKeycode) (state : Bool) : Layer :=
  if key = layerLock then
    if state then
      if layer.lock then { layer with lock := false, id := 0 }
      else if layer.id = 0 then { layer with lock := true, id := 1 }
      else { layer with lock := true }
    else layer
  else if key = keypadShift then
    if state then { layer with id := 1 }
    else if !layer.lock then { layer with id := 0 }
    else layer
  else if key = functionShift then
    if state then { layer with id := 2 }
    else if !layer.lock then { layer with id := 0 }
    else layer
  else if key = macroShift ∨ key = programKey then { layer with base := state }
  else layer

/-- The third pass: layer keys that changed update the layer. -/
def decodeLayer (definition : LogicalKeycode → HidKeycode) (layer : Layer) (key : KeyState) : Layer :=
  if key.pKey = noKey then layer
  else if NoRemap (definition key.pKey) ∧ key.state ≠ key.prevState then
    updateLayer layer (definition key.pKey) key.state
  else layer

/-! ## The notifications -/

/-- One call of the change hook; the physical key it is about is kept for reference. -/
structure KeyEvent where
  pKey : LogicalKeycode
  lKey : LogicalKeycode
  press : Bool
  deriving DecidableEq

/-- The call in `notify_key_pressed`. -/
def notifyKeyPressed (layer : Layer) (key : KeyState) : KeyEvent :=
  ⟨key.pKey, logicalKey hw layer key.pKey, true⟩

/-- The call in `notify_key_released`. -/
def notifyKeyReleased (layer : Layer) (key : KeyState) : KeyEvent :=
  ⟨key.pKey, logicalKey hw layer key.pKey, false⟩

/-- What the two do to `key_press_count`. -/
def countEvent (count : Byte) (event : KeyEvent) : Byte :=
  if event.press then count + 1 else count - 1

/-- `notify_about_key_change`. -/
def notifyAboutKeyChange (prevLayer layer : Layer) (layerChange : Bool) (key : KeyState) :
    List KeyEvent :=
  if layerChange then
    if key.prevState && key.state then
      [notifyKeyReleased hw prevLayer key, notifyKeyPressed hw layer key]
    else if key.state then [notifyKeyPressed hw layer key]
    else if key.prevState then [notifyKeyReleased hw prevLayer key]
    else []
  else if key.state then [notifyKeyPressed hw layer key]
  else [notifyKeyReleased hw layer key]

/-- The last pass over one slot: the events it sends. -/
def slotEvents (definition : LogicalKeycode → HidKeycode) (prevLayer layer : Layer)
    (layerChange : Bool) (key : KeyState) : List KeyEvent :=
  if key.pKey = noKey then []
  else if !layerChange && key.prevState = key.state then []
  else if isHidKeyToNotifyAbout (definition key.pKey) then
    notifyAboutKeyChange hw prevLayer layer layerChange key
  else []

/-- The last pass over one slot: what becomes of it. -/
def finishSlot (layerChange : Bool) (key : KeyState) : KeyState :=
  if key.pKey = noKey then key
  else if !layerChange && key.prevState = key.state then key
  else if key.prevState && !key.state then emptyKeyState
  else { key with prevState := key.state }

/-! ## The functions -/

/-- The keys whose last `debounceLen` scans are looked at, and their new debounced bits. -/
structure Debounced where
  activeDebounceIndex : Nat
  debounceBitfields : Nat → LogicalKeycode → Bool
  debouncedOnBitfield : LogicalKeycode → Bool
  debouncedBitfield : LogicalKeycode → Bool

/-- The first half of `keystate_update`: scan the matrix and debounce it. -/
def scanAndDebounce (ks : Keystate) (s : Scan) : Debounced :=
  let index := (ks.activeDebounceIndex + 1) % s.debounceLen
  let fields := Function.update ks.debounceBitfields index (scanMatrix hw s.readColumn)
  let allTimeActive := fun pKey => (List.range s.debounceLen).all fun i => fields i pKey
  let anyTimeActive := fun pKey => (List.range s.debounceLen).any fun i => fields i pKey
  { activeDebounceIndex := index
    debounceBitfields := fields
    debouncedOnBitfield := fun pKey => !ks.debouncedBitfield pKey && allTimeActive pKey
    debouncedBitfield := fun pKey =>
      debounce (ks.debouncedBitfield pKey) (allTimeActive pKey) (anyTimeActive pKey) }

/-- `keystate_update`, with the events it sends. -/
def keystateUpdate (ks : Keystate) (s : Scan) : Keystate × List KeyEvent :=
  let d := scanAndDebounce hw ks s
  let marked := ks.keyStates.map (markReleased d.debouncedBitfield)
  let recorded := recordKeys ((bitKeys hw).filter d.debouncedOnBitfield) marked
  let layer := recorded.1.foldl (decodeLayer s.definition) ks.layer
  let layerChange := layerId layer ≠ layerId ks.prevLayer
  let events := recorded.1.flatMap (slotEvents hw s.definition ks.prevLayer layer layerChange)
  ({ keyStates := recorded.1.map (finishSlot layerChange)
     keyPressCount := events.foldl countEvent ks.keyPressCount
     keyPressCounter := ks.keyPressCounter + Fin.ofNat 65536 recorded.2
     prevLayer := layer
     layer := layer
     activeDebounceIndex := d.activeDebounceIndex
     debounceBitfields := d.debounceBitfields
     debouncedBitfield := d.debouncedBitfield }, events)

/-- The loop of `keystate_hide_key`. -/
def hideSlot (pKey : LogicalKeycode) : List KeyState → List KeyState
  | [] => []
  | key :: slots =>
    if pKey = key.pKey then { key with hidden := true } :: slots else key :: hideSlot pKey slots

/-- `keystate_hide_key`. -/
def keystateHideKey (ks : Keystate) (lKey : LogicalKeycode) : Keystate :=
  { ks with keyStates := hideSlot (Fin.ofNat 256 (lKey.val % hw.keypadLayerSize)) ks.keyStates }

/-- The loop of `keystate_get_keys`, with `room` entries left. -/
def getKeysLoop (definition : LogicalKeycode → HidKeycode) (layer : Layer) (ktype : KeycodeType) :
    List KeyState → Nat → List Byte
  | [], _ => []
  | _ :: _, 0 => []
  | key :: slots, room + 1 =>
    if !key.state then getKeysLoop definition layer ktype slots (room + 1)
    else if !isHidKeyToNotifyAbout (extractKeycode hw definition layer key .hid) then
      getKeysLoop definition layer ktype slots (room + 1)
    else extractKeycode hw definition layer key ktype ::
      getKeysLoop definition layer ktype slots room

/-- `keystate_get_keys`: the entries it writes. -/
def keystateGetKeys (ks : Keystate) (definition : LogicalKeycode → HidKeycode)
    (ktype : KeycodeType) : List Byte :=
  getKeysLoop hw definition ks.layer ktype ks.keyStates ks.keyPressCount

/-- `keystate_check_key`: the first slot with the code decides, a free slot counts as `NO_KEY`. -/
def keystateCheckKey (definition : LogicalKeycode → HidKeycode) (ks : Keystate)
    (ktype : KeycodeType) (targetKey : Byte) : Bool :=
  match ks.keyStates.find? fun key => extractKeycode hw definition ks.layer key ktype = targetKey with
  | some key => key.state
  | none => false

/-- `keystate_check_keys`. -/
def keystateCheckKeys (definition : LogicalKeycode → HidKeycode) (ks : Keystate)
    (ktype : KeycodeType) (targetKeys : List Byte) : Bool :=
  if targetKeys.length > ks.keyPressCount.val then false
  else targetKeys.all (keystateCheckKey hw definition ks ktype)

/-! ## Runs -/

/-- What happens to the key states: an update, or a key is hidden until it is released. -/
inductive KeyStep
  | update (scan : Scan)
  | hide (lKey : LogicalKeycode)

/-- One step, with the events it sends. -/
def KeyStep.apply (ks : Keystate) : KeyStep → Keystate × List KeyEvent
  | .update scan => keystateUpdate hw ks scan
  | .hide lKey => (keystateHideKey hw ks lKey, [])

/-- The steps one after the other. -/
def runKeys (ks : Keystate) : List KeyStep → Keystate × List KeyEvent
  | [] => (ks, [])
  | step :: steps =>
    let next := step.apply hw ks
    let rest := runKeys next.1 steps
    (rest.1, next.2 ++ rest.2)

end KeyboardFirmware
