/-
  `config.c`: the live layout and the saved ones.

  The live layout is the array `logical_to_hid_map`.  A saved layout is the list of the keys that
  differ from the default layout; all of them share the array `saved_key_mappings`, and a slot of
  `saved_key_mapping_indices` holds the first and the last position of its list.  Positions are
  `uint8_t`, so their arithmetic wraps; where C promotes to `int` the definitions work on numbers.

  Storage operations succeed, and the waits and keep-alives between them do nothing to these
  arrays.  What a function prints when it fails is its `error`.
-/
import KeyboardFirmware.Lib.Memory
import KeyboardFirmware.Macro.Hardware
import Mathlib.Logic.Function.Basic

namespace KeyboardFirmware

open Lib

/-- The constants of a hardware variant that the layouts depend on. -/
structure LayoutHardware where
  /-- `NUM_LOGICAL_KEYS`. -/
  numLogicalKeys : Nat
  /-- `NUM_KEY_MAPPING_INDICES`. -/
  numKeyMappingIndices : Nat
  /-- `SAVED_MAPPING_COUNT`. -/
  savedMappingCount : Nat
  /-- `logical_to_hid_map_default`. -/
  logicalToHidMapDefault : Nat → HidKeycode
  /-- The keys are walked with a `uint8_t` counter. -/
  keys_le : numLogicalKeys ≤ 255
  slots_le : numKeyMappingIndices ≤ 255
  count_pos : 0 < savedMappingCount
  /-- Saved mappings are indexed by `uint8_t`. -/
  count_le : savedMappingCount ≤ 256

/-- `logical_to_hid_map_default` of `k80cs.c`: the base layer and the keypad layer. -/
def k80csDefaultMap : List HidKeycode := [
  0xFE, 0xFA, 0xFB, 0xFB, 0x04, 0x05, 0x06, 0x07, 0x08, 0x09, 0x0A, 0x0B, 0x0C, 0x0D, 0x0E, 0x0F,
  0x10, 0x11, 0x12, 0x13, 0x14, 0x15, 0x16, 0x17, 0x18, 0x19, 0x1A, 0x1B, 0x1C, 0x1D, 0x1E, 0x1F,
  0x20, 0x21, 0x22, 0x23, 0x24, 0x25, 0x26, 0x27, 0x33, 0x36, 0x37, 0x38, 0x2E, 0x2B, 0x29, 0x4C,
  0x35, 0x64, 0x50, 0x4F, 0x46, 0x39, 0x81, 0x2D, 0x31, 0x34, 0x28, 0x30, 0x2F, 0x52, 0x51, 0x48,
  0x65, 0x49, 0xE2, 0xE0, 0x4A, 0x4D, 0xE1, 0x2A, 0xE3, 0xE6, 0xE4, 0x4B, 0x4E, 0xE5, 0x2C, 0xE7,
  0xFE, 0xFA, 0xFB, 0xFB, 0xE8, 0x05, 0x06, 0xEE, 0xED, 0xF0, 0x0A, 0x54, 0x60, 0x5C, 0x5D, 0x5E,
  0x59, 0x62, 0x61, 0x57, 0xE9, 0xEB, 0xEF, 0xEC, 0x5F, 0x19, 0xEA, 0x1B, 0x55, 0x1D, 0x3A, 0x3B,
  0x3C, 0x3D, 0x3E, 0x3F, 0x40, 0x41, 0x42, 0x43, 0x56, 0x5A, 0x5B, 0x58, 0x44, 0x2B, 0x29, 0x4C,
  0x7F, 0x64, 0x50, 0x4F, 0x46, 0x39, 0x80, 0x45, 0xE8, 0xE9, 0xEA, 0x28, 0x63, 0x52, 0x51, 0x48,
  0x53, 0x68, 0xE2, 0xE0, 0x4A, 0x4D, 0xE1, 0x2A, 0xE3, 0xE6, 0xE4, 0x4B, 0x4E, 0xE5, 0x2C, 0xE7]

theorem k80csLayout_slots : 10 ≤ 255 := by decide

/-- The K80CS. -/
def k80csLayout : LayoutHardware where
  numLogicalKeys := 80 * 2
  numKeyMappingIndices := 10
  savedMappingCount := 255
  logicalToHidMapDefault := fun l => k80csDefaultMap.getD l noKey
  keys_le := by decide
  slots_le := k80csLayout_slots
  count_pos := by decide
  count_le := by decide

/-- `key_mapping_idx`; both positions are inclusive. -/
structure KeyMappingIdx where
  start : Byte
  end_ : Byte
  deriving DecidableEq

/-- `key_mapping`. -/
structure KeyMapping where
  lKey : LogicalKeycode
  hKey : HidKeycode
  deriving DecidableEq

/-- The stored configuration of the layouts. -/
structure Config where
  /-- `logical_to_hid_map`. -/
  logicalToHidMap : Nat → HidKeycode
  /-- `saved_key_mapping_indices`. -/
  savedKeyMappingIndices : Nat → KeyMappingIdx
  /-- `saved_key_mappings`. -/
  savedKeyMappings : Nat → KeyMapping

/-- What a function returns: `true`, or `false` with a message in the print buffer. -/
abbrev Outcome := Except String Unit

/-- The boolean a function returns. -/
def Outcome.success : Outcome → Bool
  | .ok _ => true
  | .error _ => false

/-- `MSG_NO_LAYOUT`. -/
def msgNoLayout : String := "No layout"

variable (hw : LayoutHardware)

/-- `config_get_definition`. -/
def configGetDefinition (c : Config) (lKey : LogicalKeycode) : HidKeycode := c.logicalToHidMap lKey

/-- `config_save_definition`. -/
def configSaveDefinition (c : Config) (lKey : LogicalKeycode) (hKey : HidKeycode) : Config :=
  { c with logicalToHidMap := Function.update c.logicalToHidMap lKey hKey }

/-- `config_reset_defaults`. -/
def configResetDefaults (c : Config) : Config :=
  { c with logicalToHidMap := fun l =>
      if l < hw.numLogicalKeys then hw.logicalToHidMapDefault l else c.logicalToHidMap l }

/-- An unused slot: both bytes are `NO_KEY`. -/
def noIdx : KeyMappingIdx := ⟨noKey, noKey⟩

/-- `config_reset_fully`, as far as the layouts go. -/
def configResetFully (c : Config) : Config :=
  configResetDefaults hw { c with savedKeyMappingIndices := fun i =>
    if i < hw.numKeyMappingIndices then noIdx else c.savedKeyMappingIndices i }

/-! ## `config_delete_layout` -/

/-- A used range that lies behind `end_`. -/
def Behind (end_ : Byte) (idx : KeyMappingIdx) : Prop := idx.start ≠ noKey ∧ idx.start > end_

instance (end_ : Byte) (idx : KeyMappingIdx) : Decidable (Behind end_ idx) :=
  inferInstanceAs (Decidable (_ ∧ _))

/-- One round of the scan over the slots: a range behind `end_` moves down by `length`; the first
    component is `max_end`. -/
def shiftRound (end_ length : Byte) (st : Byte × (Nat → KeyMappingIdx)) (i : Nat) :
    Byte × (Nat → KeyMappingIdx) :=
  let idx := st.2 i
  if Behind end_ idx then
    (if idx.end_ > st.1 then idx.end_ else st.1,
      Function.update st.2 i ⟨idx.start - length, idx.end_ - length⟩)
  else st

/-- `config_delete_layout`. -/
def configDeleteLayout (c : Config) (num : Nat) : Outcome × Config :=
  if num ≥ hw.numKeyMappingIndices then (.error msgNoLayout, c)
  else
    let start := (c.savedKeyMappingIndices num).start
    if start = noKey then (.error msgNoLayout, c)
    else
      let end_ := (c.savedKeyMappingIndices num).end_
      let length := end_ - start + 1
      let indices := Function.update c.savedKeyMappingIndices num noIdx
      let (maxEnd, indices) :=
        (List.range hw.numKeyMappingIndices).foldl (shiftRound end_ length) (end_, indices)
      let saved :=
        if end_ < maxEnd then
          memmove c.savedKeyMappings (end_.val + 1 - length.val) (end_.val + 1)
            (maxEnd.val - end_.val)
        else c.savedKeyMappings
      (.ok (), { c with savedKeyMappingIndices := indices, savedKeyMappings := saved })

/-! ## `config_save_layout` -/

/-- One round of the search for the last position in use, -1 for none. -/
def lastEndRound (indices : Nat → KeyMappingIdx) (oldEnd : Int) (i : Nat) : Int :=
  if (indices i).start = noKey then oldEnd
  else if ((indices i).end_.val : Int) > oldEnd then (indices i).end_.val
  else oldEnd

/-- The loop over the logical keys, with `k` of them left from `l` on: every key that differs from
    the default goes to `cursor`.  The cursor is `none` when there is no space. -/
def saveLoop (map : Nat → HidKeycode) :
    Nat → Nat → Byte → (Nat → KeyMapping) → Option Byte × (Nat → KeyMapping)
  | 0, _, cursor, saved => (some cursor, saved)
  | k + 1, l, cursor, saved =>
    if map l ≠ hw.logicalToHidMapDefault l then
      if cursor.val ≥ hw.savedMappingCount - 1 then (none, saved)
      else saveLoop map k (l + 1) (cursor + 1)
        (Function.update saved cursor ⟨Fin.ofNat 256 l, map l⟩)
    else saveLoop map k (l + 1) cursor saved

/-- `config_save_layout`. -/
def configSaveLayout (c : Config) (num : Nat) : Outcome × Config :=
  if num ≥ hw.numKeyMappingIndices then (.error msgNoLayout, c)
  else
    -- remove old layout
    let c := (configDeleteLayout hw c num).2
    let oldEnd := (List.range hw.numKeyMappingIndices).foldl (lastEndRound c.savedKeyMappingIndices) (-1)
    let start : Byte := Fin.ofNat 256 (oldEnd + 1).toNat
    let (cursor, saved) :=
      saveLoop hw c.logicalToHidMap hw.numLogicalKeys 0 start c.savedKeyMappings
    let c := { c with savedKeyMappings := saved }
    match cursor with
    | none => (.error "Fail: no space", c)
    | some cursor =>
      if start ≠ cursor then
        let indices := Function.update c.savedKeyMappingIndices num ⟨start, cursor - 1⟩
        (.ok (), { c with savedKeyMappingIndices := indices })
      else (.error "No change", c)

/-! ## `config_load_layout` -/

/-- The loop over the logical keys, with `k` of them left from `l` on: `m` is the next saved key, and
    `offset` the position behind it. -/
def loadLoop (saved : Nat → KeyMapping) (end_ : Byte) :
    Nat → Nat → Byte → KeyMapping → (Nat → HidKeycode) → (Nat → HidKeycode)
  | 0, _, _, _, map => map
  | k + 1, l, offset, m, map =>
    if l ≠ m.lKey.val then
      -- use default
      loadLoop saved end_ k (l + 1) offset m (Function.update map l (hw.logicalToHidMapDefault l))
    else if offset ≤ end_ then
      loadLoop saved end_ k (l + 1) (offset + 1) (saved offset) (Function.update map l m.hKey)
    else loadLoop saved end_ k (l + 1) offset m (Function.update map l m.hKey)

/-- `config_load_layout`. -/
def configLoadLayout (c : Config) (num : Nat) : Outcome × Config :=
  if num ≥ hw.numKeyMappingIndices then (.error msgNoLayout, c)
  else
    let start := (c.savedKeyMappingIndices num).start
    if start = noKey then (.error msgNoLayout, c)
    else
      let end_ := (c.savedKeyMappingIndices num).end_
      let m := c.savedKeyMappings start
      let map :=
        loadLoop hw c.savedKeyMappings end_ hw.numLogicalKeys 0 (start + 1) m c.logicalToHidMap
      (.ok (), { c with logicalToHidMap := map })

end KeyboardFirmware
