/-
  `macro_index.c`: the sorted index from trigger chords to macros and programs.

  The index is an array of `MACRO_INDEX_COUNT` entries in storage; here it is a function from
  positions to entries, so that a write outside the array would show.  Storage operations succeed,
  and the waits and keep-alives between them do nothing to the array, so they leave no trace in
  the definitions.  Pointers to entries are positions, `NULL` is `none`.
-/
import KeyboardFirmware.Lib.Bsearch
import KeyboardFirmware.Macro.Hardware
import Mathlib.Data.List.Lex
import Mathlib.Logic.Function.Basic

namespace KeyboardFirmware

open Lib

/-- `macro_idx_key`: the array of `MACRO_MAX_KEYS` key codes a trigger is stored as. -/
structure MacroIdxKey where
  keys : List LogicalKeycode
  keys_length : keys.length = macroMaxKeys
  deriving DecidableEq

/-- `macro_idx_entry`: a key (its prefix) and the 16-bit value. -/
structure MacroIdxEntry where
  key : MacroIdxKey
  val : Fin 65536
  deriving DecidableEq

/-- `macro_idx_entry_type`. -/
inductive MacroIdxEntryType where
  | macroEntry
  | programEntry
  deriving DecidableEq

/-- `macro_idx_entry_data`. -/
structure MacroIdxEntryData where
  type : MacroIdxEntryType
  data : Fin 65536
  deriving DecidableEq

/-- The array `macro_index` in storage. -/
abbrev MacroIndex := Nat → MacroIdxEntry

/-- `keys[0]`, the byte that marks an entry as empty. -/
def MacroIdxKey.head (k : MacroIdxKey) : LogicalKeycode := k.keys.getD 0 0

/-- The key array of an empty entry: `memset(keys, NO_KEY, MACRO_MAX_KEYS)`. -/
def emptyKey : MacroIdxKey := ⟨List.replicate macroMaxKeys noKey, List.length_replicate⟩

/-- An empty entry: no keys, value 0. -/
def emptyEntry : MacroIdxEntry := ⟨emptyKey, 0⟩

/-- `macro_idx_format_key`: sort the first `key_count` keys and fill up with `NO_KEY`; the flag
    tells whether any key is there. -/
def macroIdxFormatKey (key : MacroIdxKey) (keyCount : Nat) : MacroIdxKey × Bool :=
  let sorted := insertionsortUint8 key.keys keyCount
  let keys := (List.range macroMaxKeys).map fun i => if i < keyCount then sorted.getD i 0 else noKey
  (⟨keys, by simp [keys]⟩, keys.getD 0 0 ≠ noKey)

/-- `macro_idx_cmp` on the two key arrays: the first difference decides. -/
def macroIdxCmp : List LogicalKeycode → List LogicalKeycode → Int
  | a :: k, b :: v => if (a : Int) - (b : Int) ≠ 0 then (a : Int) - (b : Int) else macroIdxCmp k v
  | _, _ => 0

variable (hw : Hardware)

/-- `macro_idx_lookup`. -/
def macroIdxLookup (index : MacroIndex) (key : MacroIdxKey) : Option Nat :=
  bsearch (fun i => macroIdxCmp key.keys (index i).key.keys) hw.macroIndexCount

/-- `macro_idx_get_data`: the top bit of the value tells programs from macros. -/
def macroIdxGetData (index : MacroIndex) (mh : Nat) : MacroIdxEntryData :=
  let val := (index mh).val
  { type := if val &&& 0x8000 ≠ 0 then .programEntry else .macroEntry
    data := val &&& 0x7fff }

/-- The value `macro_idx_set_data` stores: `data`, with the top bit set for a program. -/
def packData (d : MacroIdxEntryData) : Fin 65536 :=
  match d.type with
  | .programEntry => d.data ||| 0x8000
  | .macroEntry => d.data

/-- `macro_idx_set_data`. -/
def macroIdxSetData (index : MacroIndex) (mh : Nat) (d : MacroIdxEntryData) : MacroIndex :=
  Function.update index mh { index mh with val := packData d }

/-- The loop of `macro_idx_remove` at position `i`, with `fuel` positions left to the end of the
    array: pull the next entry down, until an empty one has been written. -/
def macroIdxRemoveLoop : Nat → Nat → MacroIndex → MacroIndex
  | 0, _, index => index
  | fuel + 1, i, index =>
    let tmp := if i = hw.macroIndexCount - 1 then emptyEntry else index (i + 1)
    let index := Function.update index i tmp
    if tmp.key.head = noKey then index else macroIdxRemoveLoop fuel (i + 1) index

/-- `macro_idx_remove`. -/
def macroIdxRemove (index : MacroIndex) (mi : Nat) : MacroIndex :=
  macroIdxRemoveLoop hw (hw.macroIndexCount - mi) mi index

/-- The loop of `macro_idx_create` with counter `i`: the hole is at `i`; it is the right place when
    nothing in front of it is larger than the key, else the entry in front moves up into it.
    Empty entries are not copied. -/
def macroIdxCreateLoop (key : MacroIdxKey) : Nat → MacroIndex → Nat × MacroIndex
  | 0, index => (0, index)
  | i + 1, index =>
    if 0 ≤ macroIdxCmp key.keys (index i).key.keys then (i + 1, index)
    else if (index i).key.head = noKey then macroIdxCreateLoop key i index
    else macroIdxCreateLoop key i (Function.update index (i + 1) (index i))

/-- `macro_idx_create`: the position of the new entry and the index with its key written; `none`
    when the last entry is in use. -/
def macroIdxCreate (index : MacroIndex) (key : MacroIdxKey) : Option (Nat × MacroIndex) :=
  if (index (hw.macroIndexCount - 1)).key.head ≠ noKey then none
  else
    let (r, index) := macroIdxCreateLoop key (hw.macroIndexCount - 1) index
    some (r, Function.update index r { index r with key := key })

/-- The loop of `macro_idx_iterate` at position `i`, for an iterator that updates the index. -/
def macroIdxIterateLoop (itr : Nat → MacroIndex → MacroIndex) : Nat → Nat → MacroIndex → MacroIndex
  | 0, _, index => index
  | fuel + 1, i, index =>
    if (index i).key.head = noKey then index
    else macroIdxIterateLoop itr fuel (i + 1) (itr i index)

/-- `macro_idx_iterate`. -/
def macroIdxIterate (itr : Nat → MacroIndex → MacroIndex) (index : MacroIndex) : MacroIndex :=
  macroIdxIterateLoop itr hw.macroIndexCount 0 index

/-- One round of the scan in `get_next_macro_def_info_index`: keep the smallest key above the
    bound, with its position. -/
def nextDefRound (lowBound : LogicalKeycode) (rv : Nat × LogicalKeycode)
    (cur : MacroDefInfo × Nat) : Nat × LogicalKeycode :=
  if cur.1.lkey > lowBound ∧ cur.1.lkey < rv.2 then (cur.2, cur.1.lkey) else rv

/-- `get_next_macro_def_info_index`: the position of the smallest key above the bound, `0xff` when
    there is none. -/
def getNextMacroDefInfoIndex (infos : List MacroDefInfo) (lowBound : LogicalKeycode) : Nat :=
  if lowBound = noKey then 0xff
  else (infos.zipIdx.foldl (nextDefRound lowBound) (0xff, noKey)).1

/-- One round of `macro_idx_reset_defaults` at position `i`; the second component is the moving
    lower bound `lkey`. -/
def resetRound (st : MacroIndex × LogicalKeycode) (i : Nat) : MacroIndex × LogicalKeycode :=
  let idx := getNextMacroDefInfoIndex hw.macroDefInfos st.2
  if idx = 0xff then (Function.update st.1 i emptyEntry, noKey)
  else
    let lkey := ((hw.macroDefInfos[idx]?).map (·.lkey)).getD noKey
    let tmp : MacroIdxEntry :=
      ⟨⟨lkey :: List.replicate (macroMaxKeys - 1) noKey, by simp [macroMaxKeys]⟩,
        Fin.ofNat 65536 (idx * (macroDataHeaderLen + defHkeysLen))⟩
    (Function.update st.1 i tmp, lkey)

/-- `macro_idx_reset_defaults`. -/
def macroIdxResetDefaults (index : MacroIndex) : MacroIndex :=
  ((List.range hw.macroIndexCount).foldl (resetRound hw) (index, 0)).1

/-! ## The comparator is the lexicographic order -/

/-- One byte of the comparison: its sign is the order of the two bytes. -/
theorem byte_sub_sign (a b : LogicalKeycode) :
    ((a : Int) - (b : Int) < 0 ↔ a < b) ∧ ((a : Int) - (b : Int) = 0 ↔ a = b) := by
  rw [Fin.lt_def, Fin.ext_iff]
  omega

theorem macroIdxCmp_lt : ∀ {k v : List LogicalKeycode}, k.length = v.length →
    (macroIdxCmp k v < 0 ↔ k < v) := by
  intro k
  induction k with
  | nil => intro v h; cases v with
    | nil => simp [macroIdxCmp]
    | cons b v => simp at h
  | cons a k ih =>
    intro v h
    cases v with
    | nil => simp at h
    | cons b v =>
      obtain ⟨hlt, heq⟩ := byte_sub_sign a b
      rw [macroIdxCmp, List.cons_lt_cons_iff]
      split
      · next hne =>
        rw [hlt]
        exact ⟨Or.inl, fun h => h.resolve_right (fun hr => hne (heq.mpr hr.1))⟩
      · next hz =>
        obtain rfl : a = b := heq.mp (not_not.mp hz)
        rw [ih (by simpa using h)]
        simp

theorem macroIdxCmp_eq : ∀ {k v : List LogicalKeycode}, k.length = v.length →
    (macroIdxCmp k v = 0 ↔ k = v) := by
  intro k
  induction k with
  | nil => intro v h; cases v with
    | nil => simp [macroIdxCmp]
    | cons b v => simp at h
  | cons a k ih =>
    intro v h
    cases v with
    | nil => simp at h
    | cons b v =>
      obtain ⟨-, heq⟩ := byte_sub_sign a b
      rw [macroIdxCmp, List.cons.injEq]
      split
      · next hne => exact ⟨fun hz => absurd hz hne, fun h => absurd (heq.mpr h.1) hne⟩
      · next hz =>
        obtain rfl : a = b := heq.mp (not_not.mp hz)
        rw [ih (by simpa using h)]
        simp

/-! ## Keys and their order -/

theorem MacroIdxKey.keys_injective : Function.Injective MacroIdxKey.keys := by
  rintro ⟨k, hk⟩ ⟨v, hv⟩ (rfl : k = v)
  rfl

/-- Keys are ordered as their key arrays, lexicographically. -/
instance : LinearOrder MacroIdxKey := LinearOrder.lift' MacroIdxKey.keys MacroIdxKey.keys_injective

theorem MacroIdxKey.length_eq (k v : MacroIdxKey) : k.keys.length = v.keys.length :=
  k.keys_length.trans v.keys_length.symm

theorem macroIdxCmp_neg_iff {k v : MacroIdxKey} : macroIdxCmp k.keys v.keys < 0 ↔ k < v :=
  macroIdxCmp_lt (k.length_eq v)

theorem macroIdxCmp_zero_iff {k v : MacroIdxKey} : macroIdxCmp k.keys v.keys = 0 ↔ k = v :=
  (macroIdxCmp_eq (k.length_eq v)).trans MacroIdxKey.keys_injective.eq_iff

theorem macroIdxCmp_nonneg_iff {k v : MacroIdxKey} : 0 ≤ macroIdxCmp k.keys v.keys ↔ v ≤ k := by
  rw [← not_lt, ← not_lt, macroIdxCmp_neg_iff]

theorem macroIdxCmp_pos_iff {k v : MacroIdxKey} : 0 < macroIdxCmp k.keys v.keys ↔ v < k := by
  rw [lt_iff_le_and_ne, lt_iff_le_and_ne, macroIdxCmp_nonneg_iff]
  refine and_congr_right fun _ => ?_
  rw [ne_comm, ne_eq, macroIdxCmp_zero_iff, ne_eq, eq_comm]

@[simp] theorem emptyKey_head : emptyKey.head = noKey := rfl

/-- A key with a real first code sorts before the empty key: `NO_KEY` is the largest byte. -/
theorem MacroIdxKey.lt_emptyKey {k : MacroIdxKey} (h : k.head ≠ noKey) : k < emptyKey := by
  obtain ⟨keys, hlen⟩ := k
  cases keys with
  | nil => simp [macroMaxKeys] at hlen
  | cons a t =>
    have hne : a ≠ noKey := h
    have hle : a ≤ noKey := Fin.le_last a
    exact List.cons_lt_cons_iff.mpr (Or.inl (lt_of_le_of_ne hle hne))

end KeyboardFirmware
