/-
  The hardware variants, as far as the macro store depends on them (`hardware/*.h`).

  A variant fixes the number of index entries, the size of the macro area and the table of
  default macros.  The proofs never look at a particular variant: `Hardware` carries the few facts
  they need as fields, so that a new variant is a new instance whose side conditions `decide`
  closes.
-/
import KeyboardFirmware.Macro.Sort
import Mathlib.Data.List.Nodup

namespace KeyboardFirmware

/-- `logical_keycode`. -/
abbrev LogicalKeycode := Byte

/-- `hid_keycode`. -/
abbrev HidKeycode := Byte

/-- `NO_KEY`. -/
def noKey : Byte := 0xFF

/-- `MACRO_MAX_KEYS`. -/
def macroMaxKeys : Nat := 4

/-- `MACRO_DATA_HEADER_LEN`: the 16-bit length in front of the events of a macro. -/
def macroDataHeaderLen : Nat := 2

/-- `sizeof(macro_def_infos[0].hkeys)`. -/
def defHkeysLen : Nat := 3

/-- `macro_def_info`: a default macro, triggered by one logical key. -/
structure MacroDefInfo where
  lkey : LogicalKeycode
  hkeys : List HidKeycode
  hkeys_length : hkeys.length = defHkeysLen

/-- The constants of a hardware variant.  `macroDefInfos` leaves out the end marker: a default
    table lists valid logical keys, each at most once, and fits the index and the macro area. -/
structure Hardware where
  /-- `MACRO_INDEX_COUNT`. -/
  macroIndexCount : Nat
  /-- `MACROS_SIZE`. -/
  macrosSize : Nat
  /-- `macro_def_infos` without its end marker. -/
  macroDefInfos : List MacroDefInfo
  count_pos : 0 < macroIndexCount
  /-- The index is walked with `uint8_t` counters. -/
  count_le : macroIndexCount ≤ 255
  size_ge : 2 ≤ macrosSize
  /-- Offsets into the macro area share their 16 bits with the program flag. -/
  size_le : macrosSize ≤ 0x8000
  lkeys_nodup : (macroDefInfos.map (·.lkey)).Nodup
  lkeys_valid : ∀ d ∈ macroDefInfos, 0 < d.lkey ∧ d.lkey ≠ noKey
  defs_fit_index : macroDefInfos.length ≤ macroIndexCount
  defs_fit_macros : 2 + macroDefInfos.length * (macroDataHeaderLen + defHkeysLen) ≤ macrosSize

/-- A variant without default macros (the weak definition of `macro_def_infos` in `config.c`). -/
def Hardware.plain (count size : Nat) (h1 : 0 < count) (h2 : count ≤ 255) (h3 : 2 ≤ size)
    (h4 : size ≤ 0x8000) : Hardware where
  macroIndexCount := count
  macrosSize := size
  macroDefInfos := []
  count_pos := h1
  count_le := h2
  size_ge := h3
  size_le := h4
  lkeys_nodup := List.nodup_nil
  lkeys_valid := by simp
  defs_fit_index := by simp
  defs_fit_macros := by simpa using h3

def kinesis : Hardware := .plain 50 1024 (by decide) (by decide) (by decide) (by decide)
def kinesis110 : Hardware := .plain 50 1024 (by decide) (by decide) (by decide) (by decide)
def ergodox : Hardware := .plain 50 1024 (by decide) (by decide) (by decide) (by decide)
/-- Ergodox built with `NO_EXTERNAL_STORAGE`. -/
def ergodoxInternal : Hardware := .plain 10 256 (by decide) (by decide) (by decide) (by decide)
def k80cs : Hardware := .plain 64 1024 (by decide) (by decide) (by decide) (by decide)

/-! ## The default macros of the K84CS -/

/-- `fnLayer`: two layers of `KEYPAD_LAYER_SIZE = 84` keys come before the function layer. -/
def fnLayer : Byte := 2 * 84

/-- One row of the K84CS table: twelve keys of the function layer typing `F11, F1 .. F10, F12`
    with a modifier that depends on the hand. -/
def fnRow (left right : HidKeycode) (keys : List LogicalKeycode) : List MacroDefInfo :=
  List.zipWith (fun lkey mf => ⟨fnLayer + lkey, [mf.1, mf.2, mf.2], rfl⟩) keys
    (List.zip (List.replicate 6 left ++ List.replicate 6 right)
      [0x44, 0x3A, 0x3B, 0x3C, 0x3D, 0x3E, 0x3F, 0x40, 0x41, 0x42, 0x43, 0x45])

/-- `macro_def_infos` of `k84cs.c`. -/
def k84csMacroDefInfos : List MacroDefInfo :=
  fnRow 0xE3 0xE7 [48, 34, 35, 36, 37, 38, 39, 40, 41, 42, 43, 59] ++
  fnRow 0xE2 0xE6 [49, 24, 30, 12, 25, 27, 32, 28, 16, 22, 23, 60] ++
  fnRow 0xE1 0xE5 [50, 8, 26, 11, 13, 14, 15, 17, 18, 19, 44, 61] ++
  fnRow 0xE0 0xE4 [51, 33, 31, 10, 29, 9, 21, 20, 45, 46, 47, 62]

def k84cs : Hardware where
  macroIndexCount := 128
  macrosSize := 3586
  macroDefInfos := k84csMacroDefInfos
  count_pos := by decide
  count_le := by decide
  size_ge := by decide
  size_le := by decide
  lkeys_nodup := by decide +kernel
  lkeys_valid := by decide +kernel
  defs_fit_index := by decide
  defs_fit_macros := by decide

end KeyboardFirmware
