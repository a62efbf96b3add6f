/-
  `Keyboard.c`: the main loop and its states.

  The variables of the file, the key states and the stored layouts and settings are one `Keyboard`;
  what an iteration of the main loop reads from outside is one `Iteration`.  The buzzer, the display,
  the LEDs and the flags that enable macros and programs are left out; what the second half of
  `handle_state_normal` finds in the macro index is an input.
-/
import KeyboardFirmware.Config.Layout
import KeyboardFirmware.Keystate.Keystate
import KeyboardFirmware.Macro.MacroIndex

namespace KeyboardFirmware

/-- `state`. -/
inductive State
  | normal
  | waiting
  | printing
  | programmingSrc
  | programmingDst
  | macroRecordTrigger
  | macroRecord
  | mergingMacroPlay
  | macroPlay
  deriving DecidableEq

/-- The codes of the keys that make a chord with PROGRAM: `SPECIAL_HKEY_MACRO_RECORD` and so on. -/
structure ChordKeys where
  macroRecord : HidKeycode
  remap : HidKeycode
  reboot : HidKeycode
  macrosEnable : HidKeycode
  resetConfig : HidKeycode
  /-- None without a buzzer. -/
  toggleBuzzer : Option HidKeycode
  debounceUp : HidKeycode
  debounceDw : HidKeycode
  mouseDivUp : HidKeycode
  mouseDivDw : HidKeycode
  wheelDivUp : HidKeycode
  wheelDivDw : HidKeycode
  configSave : HidKeycode
  configLoad : HidKeycode
  configDelete : HidKeycode
  resetFully : HidKeycode

/-- A hardware variant, as far as the states depend on it.  Its default mapping has the same special
    keys in every layer, and the layers that they switch to. -/
structure KeyboardHardware where
  keystate : KeystateHardware
  layout : LayoutHardware
  chords : ChordKeys
  numLayers : Nat
  layers_pos : 0 < numLayers
  keys_eq : layout.numLogicalKeys = numLayers * keystate.keypadLayerSize
  keypadLayer : ∀ p < keystate.keypadLayerSize, layout.logicalToHidMapDefault p = layerLock ∨
    layout.logicalToHidMapDefault p = keypadShift → 1 < numLayers
  functionLayer : ∀ p < keystate.keypadLayerSize,
    layout.logicalToHidMapDefault p = functionShift → 2 < numLayers
  aligned : ∀ p < keystate.keypadLayerSize, ∀ k < numLayers,
    NoRemap (layout.logicalToHidMapDefault (p + k * keystate.keypadLayerSize)) ∨
      NoRemap (layout.logicalToHidMapDefault p) →
    layout.logicalToHidMapDefault (p + k * keystate.keypadLayerSize) =
      layout.logicalToHidMapDefault p

/-- The chords of `k80cs.h`. -/
def k80csChords : ChordKeys where
  macroRecord := 0x1A
  remap := 0x15
  reboot := 0x05
  macrosEnable := 0x14
  resetConfig := 0x06
  toggleBuzzer := some 0x1D
  debounceUp := 0x2B
  debounceDw := 0x29
  mouseDivUp := 0x17
  mouseDivDw := 0x0A
  wheelDivUp := 0x39
  wheelDivDw := 0x81
  configSave := 0x16
  configLoad := 0x08
  configDelete := 0x07
  resetFully := 0x09

/-- The K80CS. -/
def k80csKeyboard : KeyboardHardware where
  keystate := k80csKeystate
  layout := k80csLayout
  chords := k80csChords
  numLayers := 2
  layers_pos := Nat.zero_lt_two
  keys_eq := rfl
  keypadLayer := by decide
  functionLayer := by decide +kernel
  aligned := by decide +kernel

/-- The stored lengths and divisors. -/
structure Settings where
  debounceLen : Byte
  mouseDiv : Byte
  wheelDiv : Byte

/-- The variables of `Keyboard.c`, those of its functions included, with the key states and the stored
    configuration. -/
structure Keyboard where
  keystate : Keystate
  config : Config
  settings : Settings
  currentState : State
  nextState : State
  waitKeyPressCount : Byte
  inPrgChordWithLcdInfo : Bool
  newDebounceLen : Byte
  newMouseDiv : Byte
  newWheelDiv : Byte
  /-- `program_src_hkey` of `handle_state_programming`. -/
  programSrcHkey : HidKeycode
  /-- `key` of `handle_state_macro_record_trigger`. -/
  triggerKey : MacroIdxKey
  /-- `last_count` of the same function. -/
  lastCount : Byte
  recordingMacro : Bool

/-- The variables at start-up. -/
def keyboardInit (config : Config) (settings : Settings) : Keyboard where
  keystate := keystateInit
  config := config
  settings := settings
  currentState := .normal
  nextState := .normal
  waitKeyPressCount := 0
  inPrgChordWithLcdInfo := false
  newDebounceLen := 0
  newMouseDiv := 0
  newWheelDiv := 0
  programSrcHkey := 0
  triggerKey := ⟨List.replicate macroMaxKeys 0, List.length_replicate⟩
  lastCount := 0
  recordingMacro := false

/-- What the normal state finds for the pressed keys in the macro index. -/
inductive TriggerOutcome
  /-- Nothing that starts. -/
  | none
  /-- A program; the keys of its trigger are hidden. -/
  | program (hidden : List LogicalKeycode)
  /-- A macro, by its full chord or by its main key only; the main key is hidden. -/
  | plays (multiKeyTrigger : Bool) (mainKey : LogicalKeycode)

/-- What one iteration of the main loop reads from outside. -/
structure Iteration where
  /-- The scan, if the key states are updated; the mapping is not taken from it. -/
  scan : Option Scan
  /-- What is on the stack where a handler puts its array of keys. -/
  junk : Nat → LogicalKeycode
  /-- `run_photosensor`: there is something to print. -/
  photosensor : Bool
  /-- `printing_buffer_empty`. -/
  printed : Bool
  trigger : TriggerOutcome
  /-- The result of `macros_start_macro`. -/
  macroStarts : Bool
  /-- A call of the record hook in the update could not append its event. -/
  appendFails : Bool
  /-- `macros_fill_next_report` has come to the end. -/
  playbackOver : Bool

/-- `config_reset_fully`, as far as the layouts and settings go. -/
def Keyboard.resetFully (hw : KeyboardHardware) (kb : Keyboard) : Keyboard :=
  { kb with config := configResetFully hw.layout kb.config, settings := ⟨3, 25, 4⟩ }

/-- Wait for the keys to be released, then go on with `next`. -/
def Keyboard.wait (kb : Keyboard) (next : State) : Keyboard :=
  { kb with currentState := .waiting, nextState := next }

/-- Overwrite the first keys of an array of `MACRO_MAX_KEYS`. -/
def MacroIdxKey.write (key : MacroIdxKey) (keys : List LogicalKeycode) : MacroIdxKey where
  keys := (keys ++ key.keys.drop keys.length).take macroMaxKeys
  keys_length := by
    have := key.keys_length
    simp only [List.length_take, List.length_append, List.length_drop]
    omega

section Handlers

variable (hw : KeyboardHardware) (it : Iteration) (kb : Keyboard)

/-- The mapping in force: `config_get_definition`. -/
def Keyboard.definition : LogicalKeycode → HidKeycode := configGetDefinition kb.config

/-- `keystate_check_keys` for the chord of PROGRAM and another key. -/
def checkChord (key : HidKeycode) : Bool :=
  keystateCheckKeys hw.keystate kb.definition kb.keystate .hid [programKey, key]

/-- What `keystate_get_keys` writes into the array of a handler. -/
def pressedKeys : List LogicalKeycode :=
  keystateGetKeys hw.keystate kb.keystate kb.definition .logical

/-- What hiding a key keeps, hiding several keys keeps. -/
theorem foldl_hideKey {hw : KeystateHardware} {P : Keystate → Prop}
    (hhide : ∀ ks lKey, P ks → P (keystateHideKey hw ks lKey)) :
    ∀ (keys : List LogicalKeycode) {ks : Keystate}, P ks → P (keys.foldl (keystateHideKey hw) ks)
  | [], _, h => h
  | _ :: keys, _, h => foldl_hideKey hhide keys (hhide _ _ h)

/-! ## The normal state -/

/-- The number that a chord sets up: the stored one at first, then changed by every chord; `none` if
    another number is being set up. -/
def setupNumber (stored new : Byte) (change : Byte → Byte) : Option Byte :=
  if !kb.inPrgChordWithLcdInfo then some stored
  else if new = 0 then none
  else some (change new)

/-- `setupNumberFinish`. -/
def Keyboard.setupNumberFinish : Keyboard :=
  { kb with inPrgChordWithLcdInfo := true, waitKeyPressCount := 2 }.wait .normal

/-- The chords for `new_debounce_len`. -/
def setupDebounceLen (change : Byte → Byte) : Keyboard :=
  match setupNumber kb kb.settings.debounceLen kb.newDebounceLen change with
  | some n => { kb with newDebounceLen := n }.setupNumberFinish
  | none => kb

/-- The chords for `new_mouse_div`. -/
def setupMouseDiv (change : Byte → Byte) : Keyboard :=
  match setupNumber kb kb.settings.mouseDiv kb.newMouseDiv change with
  | some n => { kb with newMouseDiv := n }.setupNumberFinish
  | none => kb

/-- The chords for `new_wheel_div`. -/
def setupWheelDiv (change : Byte → Byte) : Keyboard :=
  match setupNumber kb kb.settings.wheelDiv kb.newWheelDiv change with
  | some n => { kb with newWheelDiv := n }.setupNumberFinish
  | none => kb

/-- One more, below `limit`. -/
def countUp (limit n : Byte) : Byte := if n < limit then n + 1 else n

/-- One less, above `limit`. -/
def countDown (limit n : Byte) : Byte := if n > limit then n - 1 else n

/-- One case of a switch over the chords. -/
theorem chord_case {P : Keyboard → Prop} {p : Prop} [Decidable p] {kb : Keyboard}
    {rest : Option Keyboard} (h : P kb) (hrest : ∀ kb', rest = some kb' → P kb') :
    ∀ kb', (if p then some kb else rest) = some kb' → P kb' := by
  intro kb' hchord
  split_ifs at hchord
  · exact Option.some_inj.mp hchord ▸ h
  · exact hrest kb' hchord

/-- The chords of PROGRAM and one other key; `none` if there is no such chord. -/
def twoKeyChord (key : HidKeycode) : Option Keyboard :=
  if key = hw.chords.macroRecord then some (kb.wait .macroRecordTrigger)
  else if key = hw.chords.remap then some (kb.wait .programmingSrc)
  -- `reboot_firmware` does not return
  else if key = hw.chords.reboot then some (keyboardInit kb.config kb.settings)
  else if key = hw.chords.macrosEnable then some (kb.wait .normal)
  else if key = hw.chords.resetConfig then
    some ({ kb with config := configResetDefaults hw.layout kb.config }.wait .normal)
  else if some key = hw.chords.toggleBuzzer then some (kb.wait .normal)
  else if key = hw.chords.debounceUp then some (setupDebounceLen kb (countUp 8))
  else if key = hw.chords.debounceDw then some (setupDebounceLen kb (countDown 2))
  else if key = hw.chords.mouseDivUp then some (setupMouseDiv kb (countUp 254))
  else if key = hw.chords.mouseDivDw then some (setupMouseDiv kb (countDown 1))
  else if key = hw.chords.wheelDivUp then some (setupWheelDiv kb (countUp 254))
  else if key = hw.chords.wheelDivDw then some (setupWheelDiv kb (countDown 1))
  else none

/-- `HID_KEYBOARD_SC_1_AND_EXCLAMATION`. -/
def hidKey1 : HidKeycode := 0x1E

/-- The result of an operation on a saved layout. -/
def Keyboard.layoutResult (r : Outcome × Config) : Keyboard :=
  let kb := { kb with config := r.2 }
  if r.1.success then kb.wait .normal
  -- the error message is in the print buffer
  else { kb with currentState := .printing, nextState := .normal }

/-- `SPECIAL_HKEY_RESET_CONFIG_POS`: the full reset, by the codes of the two keys in ascending order. -/
def IsFullReset (key₀ key₁ : HidKeycode) : Prop :=
  if hw.chords.resetConfig < hw.chords.resetFully then
    key₀ = hw.chords.resetConfig ∧ key₁ = hw.chords.resetFully
  else key₁ = hw.chords.resetConfig ∧ key₀ = hw.chords.resetFully

instance (key₀ key₁ : HidKeycode) : Decidable (IsFullReset hw key₀ key₁) :=
  inferInstanceAs (Decidable (if hw.chords.resetConfig < hw.chords.resetFully then
    key₀ = hw.chords.resetConfig ∧ key₁ = hw.chords.resetFully
  else key₁ = hw.chords.resetConfig ∧ key₀ = hw.chords.resetFully))

/-- The operation on the saved layout `index` that a key stands for. -/
def layoutChord (key : HidKeycode) (index : Nat) : Option Keyboard :=
  if key = hw.chords.configSave then
    some (kb.layoutResult (configSaveLayout hw.layout kb.config index))
  else if key = hw.chords.configLoad then
    some (kb.layoutResult (configLoadLayout hw.layout kb.config index))
  else if key = hw.chords.configDelete then
    some (kb.layoutResult (configDeleteLayout hw.layout kb.config index))
  else none

/-- The chords of PROGRAM and two other keys; `none` if there is no such chord. -/
def threeKeyChord (key₀ key₁ : HidKeycode) : Option Keyboard :=
  if IsFullReset hw key₀ key₁ then some ((kb.resetFully hw).wait .normal)
  else if key₁ ≥ hidKey1 ∧ key₁.val ≤ hidKey1.val + hw.layout.numKeyMappingIndices then
    layoutChord hw kb key₀ (key₁.val - hidKey1.val)
  else none

/-- The chords with PROGRAM, for the HID codes of the pressed keys in ascending order. -/
def programChord (hidKeys : List HidKeycode) : Option Keyboard :=
  match hidKeys with
  | [key, program] => if program = programKey then twoKeyChord hw kb key else none
  | [key₀, key₁, program] => if program = programKey then threeKeyChord hw kb key₀ key₁ else none
  | _ => none

/-- `handle_state_normal`. -/
def handleStateNormal : Keyboard :=
  let count := kb.keystate.keyPressCount.val
  if count = 0 ∨ count > macroMaxKeys then kb
  else
    let written := pressedKeys hw kb
    let keys := (List.range count).map fun i => written.getD i (it.junk i)
    match programChord hw kb (insertionsortUint8 (keys.map kb.definition) count) with
    | some kb => kb
    | none =>
      match it.trigger with
      | .none => kb
      | .program hidden =>
        { kb with keystate := hidden.foldl (keystateHideKey hw.keystate) kb.keystate }
      | .plays multiKeyTrigger mainKey =>
        { kb with
          keystate := keystateHideKey hw.keystate kb.keystate mainKey
          waitKeyPressCount := kb.keystate.keyPressCount
          currentState := if multiKeyTrigger then .macroPlay else .mergingMacroPlay }

/-! ## The other states -/

/-- `handle_state_programming`. -/
def handleStateProgramming : Keyboard :=
  let count := kb.keystate.keyPressCount
  if count = 0 ∨ count > 2 then kb
  else if count = 2 then
    if checkChord hw kb hw.chords.remap then kb.wait .normal else kb
  else
    -- only one key is pressed
    let lkey := (pressedKeys hw kb).headD (it.junk 0)
    if NoRemap (configGetDefinition kb.config lkey) then kb
    else if kb.currentState = .programmingSrc then
      { kb with programSrcHkey := hw.layout.logicalToHidMapDefault lkey }.wait .programmingDst
    else
      { kb with config := configSaveDefinition kb.config lkey kb.programSrcHkey }.wait
        .programmingSrc

/-- `handle_state_macro_record_trigger`, with the key it hands to `macros_start_macro`. -/
def handleStateMacroRecordTrigger : Keyboard × Option MacroIdxKey :=
  let count := kb.keystate.keyPressCount
  if checkChord hw kb hw.chords.macroRecord then (kb.wait .normal, none)
  else if count.val > macroMaxKeys then ({ kb with lastCount := 0 }.wait .normal, none)
  else if count ≥ kb.lastCount then
    ({ kb with triggerKey := kb.triggerKey.write (pressedKeys hw kb), lastCount := count }, none)
  else
    let (key, valid) := macroIdxFormatKey kb.triggerKey kb.lastCount.val
    let kb := { kb with triggerKey := key, lastCount := 0 }
    if !valid then (kb, none)
    else if it.macroStarts then (kb.wait .macroRecord, some key)
    else (kb.wait .normal, some key)

/-- `handle_state_macro_record`. -/
def handleStateMacroRecord : Keyboard :=
  if checkChord hw kb hw.chords.macroRecord then
    { kb with recordingMacro := false }.wait .normal
  else { kb with recordingMacro := true }

/-! ## The main loop -/

/-- The update of the key states, in which the record hook may give up. -/
def updateKeys : Keyboard :=
  match it.scan with
  | none => kb
  | some scan =>
    let keystate := (keystateUpdate hw.keystate kb.keystate { scan with definition := kb.definition }).1
    let kb := { kb with keystate := keystate }
    if kb.recordingMacro && it.appendFails then { kb with recordingMacro := false }.wait .normal
    else kb

/-- The end of a chord that has set up a number. -/
def saveNumbers (kb : Keyboard) : Keyboard :=
  if kb.inPrgChordWithLcdInfo && kb.keystate.keyPressCount = 0 then
    let save (stored new : Byte) : Byte := if new ≠ 0 then new else stored
    { kb with
      inPrgChordWithLcdInfo := false
      settings :=
        { debounceLen := save kb.settings.debounceLen kb.newDebounceLen
          mouseDiv := save kb.settings.mouseDiv kb.newMouseDiv
          wheelDiv := save kb.settings.wheelDiv kb.newWheelDiv }
      newDebounceLen := 0
      newMouseDiv := 0
      newWheelDiv := 0 }
  else kb

/-- The switch over the states. -/
def dispatch : Keyboard × Option MacroIdxKey :=
  match kb.currentState with
  | .normal => (handleStateNormal hw it kb, none)
  | .waiting =>
    let count := kb.keystate.keyPressCount
    if count = 0 ∨ (count ≠ kb.waitKeyPressCount ∧ kb.waitKeyPressCount ≠ 0) then
      ({ kb with waitKeyPressCount := 0, currentState := kb.nextState, nextState := .normal }, none)
    else (kb, none)
  | .printing => (if it.printed then { kb with currentState := .waiting } else kb, none)
  | .programmingSrc | .programmingDst => (handleStateProgramming hw it kb, none)
  | .macroRecordTrigger => handleStateMacroRecordTrigger hw it kb
  | .macroRecord => (handleStateMacroRecord hw kb, none)
  | .mergingMacroPlay | .macroPlay => (kb, none)

/-- The end of a playback, in `Fill_KeyboardReport`. -/
def fillKeyboardReport : Keyboard :=
  if (kb.currentState = .mergingMacroPlay ∨ kb.currentState = .macroPlay) ∧ it.playbackOver then
    kb.wait .normal
  else kb

/-- The part of an iteration in front of the switch. -/
def beforeDispatch : Keyboard :=
  let kb := updateKeys hw it kb
  saveNumbers (if it.photosensor then
    { kb with nextState := kb.currentState, currentState := .printing } else kb)

/-- One iteration of the loop in `Keyboard_Main`, with the key it hands to `macros_start_macro`. -/
def mainLoop : Keyboard × Option MacroIdxKey :=
  let (kb, started) := dispatch hw it (beforeDispatch hw it kb)
  (fillKeyboardReport it kb, started)

end Handlers

/-- The iterations one after the other. -/
def runLoop (hw : KeyboardHardware) (kb : Keyboard) (its : List Iteration) : Keyboard :=
  its.foldl (fun kb it => (mainLoop hw it kb).1) kb

end KeyboardFirmware
