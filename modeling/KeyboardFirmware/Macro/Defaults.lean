/-
  The default macros: `macro_idx_reset_defaults` and `macros_reset_defaults` on every table.

  The index is filled in the order of the triggers, by a scan for the smallest key above a moving bound;
  the storage is filled in the order of the table.  Both compute the offsets from the positions in the
  table, so that they agree.  But the bound starts at 0 and the scan looks for keys above it: a definition
  with the logical key 0 has a record and never an entry.  A table without that key is reset to exactly
  what it says (`defaults_right_iff`).
-/
import KeyboardFirmware.Macro.Playback

namespace KeyboardFirmware

open Lib
open Vm (ExtraKeyboardReport)

/-- The constants of a hardware variant with any table of default macros: the triggers are valid logical
    keys, each at most once, and the table fits the index and the macro area. -/
structure MacroTable where
  /-- `MACRO_INDEX_COUNT`. -/
  macroIndexCount : Nat
  /-- `MACROS_SIZE`. -/
  macrosSize : Nat
  /-- `macro_def_infos` without its end marker. -/
  macroDefInfos : List MacroDefInfo
  count_pos : 0 < macroIndexCount
  count_le : macroIndexCount ≤ 255
  size_ge : 2 ≤ macrosSize
  size_le : macrosSize ≤ 0x8000
  lkeys_nodup : (macroDefInfos.map (·.lkey)).Nodup
  lkeys_valid : ∀ d ∈ macroDefInfos, d.lkey ≠ noKey
  defs_fit_index : macroDefInfos.length ≤ macroIndexCount
  defs_fit_macros : 2 + macroDefInfos.length * (macroDataHeaderLen + defHkeysLen) ≤ macrosSize

namespace MacroTable

variable (tab : MacroTable)

/-- What lookup and playback see of the variant: the sizes. -/
def sizes : Hardware :=
  .plain tab.macroIndexCount tab.macrosSize tab.count_pos tab.count_le tab.size_ge tab.size_le

/-- One round of `macro_idx_reset_defaults` at position `i`; the second component is the moving lower bound
    `lkey`. -/
def resetRound (st : MacroIndex × LogicalKeycode) (i : Nat) : MacroIndex × LogicalKeycode :=
  let idx := getNextMacroDefInfoIndex tab.macroDefInfos st.2
  if idx = 0xff then (Function.update st.1 i emptyEntry, noKey)
  else
    let lkey := ((tab.macroDefInfos[idx]?).map (·.lkey)).getD noKey
    let tmp : MacroIdxEntry :=
      ⟨⟨lkey :: List.replicate (macroMaxKeys - 1) noKey, by simp [macroMaxKeys]⟩,
        Fin.ofNat 65536 (idx * (macroDataHeaderLen + defHkeysLen))⟩
    (Function.update st.1 i tmp, lkey)

/-- `macro_idx_reset_defaults`. -/
def macroIdxResetDefaults (index : MacroIndex) : MacroIndex :=
  ((List.range tab.macroIndexCount).foldl tab.resetRound (index, 0)).1

/-- `macros_reset_defaults`. -/
def macrosResetDefaults (mem : Storage) : Storage :=
  storageWriteShort (tab.macroDefInfos.zipIdx.foldl resetMacroRound mem) macrosEndOffset
    (Fin.ofNat 65536 (tab.macroDefInfos.length * (macroDataHeaderLen + defHkeysLen)))

/-- A store after a full reset. -/
def reset (st : MacroStore) : MacroStore :=
  { index := tab.macroIdxResetDefaults st.index
    mem := tab.macrosResetDefaults st.mem
    recordingState := none }

end MacroTable

/-- The key of a definition's trigger. -/
def MacroDefInfo.key (d : MacroDefInfo) : MacroIdxKey := (defEntry 0 d).key

/-- The reports of a playback: the events are toggled one after the other. -/
def playedReports (events : List HidKeycode) : List KeyboardReport :=
  (List.range events.length).map fun k =>
    (toggled ExtraKeyboardReport.clear (events.take (k + 1))).append emptyReport

/-- The store holds the default macros of the table and nothing else. -/
structure MacroTable.Right (tab : MacroTable) (st : MacroStore) : Prop where
  sorted : ∃ n ≤ tab.macroIndexCount,
    (∀ i < n, (st.index i).key.head ≠ noKey) ∧
    (∀ i j, i < j → j < n → (st.index i).key < (st.index j).key) ∧
    ∀ i, n ≤ i → i < tab.macroIndexCount → st.index i = emptyEntry
  found : ∀ d ∈ tab.macroDefInfos, triggerContents tab.sizes st d.key = some (.events d.hkeys)
  played : ∀ d ∈ tab.macroDefInfos, playTrigger tab.sizes st d.key = some (playedReports d.hkeys)
  end_eq : (storageReadShort st.mem macrosEndOffset).val = (encode (tab.macroDefInfos.map defRecorded)).length
  tiled : Holds st.mem (macros 0) (encode (tab.macroDefInfos.map defRecorded))
  only : ∀ key : MacroIdxKey, key.head ≠ noKey → (∀ d ∈ tab.macroDefInfos, key ≠ d.key) →
    macroIdxLookup tab.sizes st.index key = none

variable {tab : MacroTable}

/-! ## Tables without the key 0 -/

/-- Such a table is one of a hardware variant. -/
def MacroTable.hardware (tab : MacroTable) (hpos : ∀ d ∈ tab.macroDefInfos, d.lkey ≠ 0) : Hardware where
  macroIndexCount := tab.macroIndexCount
  macrosSize := tab.macrosSize
  macroDefInfos := tab.macroDefInfos
  count_pos := tab.count_pos
  count_le := tab.count_le
  size_ge := tab.size_ge
  size_le := tab.size_le
  lkeys_nodup := tab.lkeys_nodup
  lkeys_valid d hd := ⟨Fin.pos_iff_ne_zero.mpr (hpos d hd), tab.lkeys_valid d hd⟩
  defs_fit_index := tab.defs_fit_index
  defs_fit_macros := tab.defs_fit_macros

theorem MacroTable.reset_eq (hpos : ∀ d ∈ tab.macroDefInfos, d.lkey ≠ 0) (st : MacroStore) :
    tab.reset st = st.reset (tab.hardware hpos) := rfl

/-- Lookup looks at the number of entries only. -/
theorem lookup_sizes (hpos : ∀ d ∈ tab.macroDefInfos, d.lkey ≠ 0) :
    macroIdxLookup tab.sizes = macroIdxLookup (tab.hardware hpos) := rfl

theorem MacroDefInfo.key_eq (d : MacroDefInfo) (h : d.lkey ≠ noKey) : d.key = (singleKey d.lkey h).key :=
  defEntry_key 0 d h

/-- What is stored as a macro is played back. -/
theorem playTrigger_played {hw : Hardware} {st : MacroStore} {key : MacroIdxKey} {events : List HidKeycode}
    (hne : events ≠ []) (hlen : events.length < 65536)
    (h : triggerContents hw st key = some (.events events)) :
    playTrigger hw st key = some (playedReports events) := by
  obtain ⟨offset, hplay, hevents⟩ := playTrigger_of_contents h
  rw [hplay]
  have hcount : (storageReadShort st.mem (macros offset)).val = events.length := by
    rw [← hevents, macroEvents, readBytes, List.length_map, List.length_range]
  have hholds : Holds st.mem (eventsOf (macros offset)) events := by
    intro i hi
    have hi' : i < (macroEvents st.mem offset).length := by rwa [hevents]
    have hget : (macroEvents st.mem offset)[i] = st.mem (eventsOf (macros offset) + i) := by
      simp [macroEvents, readBytes]
    rw [← hget]
    simp only [hevents]
  obtain ⟨hlength, hat⟩ := playReports_spec st.mem events 65536 (macrosStartPlayback st.mem offset) hholds hcount
    hne (by omega)
  have heq : playReports st.mem 65536 (macrosStartPlayback st.mem offset) = playedReports events := by
    apply List.ext_getElem?
    intro k
    rcases Nat.lt_or_ge k events.length with hk | hk
    · rw [hat k hk, playedReports, List.getElem?_map, List.getElem?_range hk]
      rfl
    · rw [List.getElem?_eq_none (by omega), List.getElem?_eq_none (by simpa [playedReports] using hk)]
  rw [heq]

/-- A reset leaves the default macros, and nothing else. -/
theorem reset_right (hpos : ∀ d ∈ tab.macroDefInfos, d.lkey ≠ 0) (st : MacroStore) : tab.Right (tab.reset st) := by
  rw [MacroTable.reset_eq hpos]
  obtain ⟨m, hreset⟩ := resetLoop_inv (tab.hardware hpos) st.index (tab.hardware hpos).macroIndexCount
  obtain ⟨n, hstore⟩ := reset_storeInv (tab.hardware hpos) st
  have hfound : ∀ d ∈ tab.macroDefInfos,
      triggerContents tab.sizes (st.reset (tab.hardware hpos)) d.key = some (.events d.hkeys) := by
    intro d hd
    rw [d.key_eq (tab.lkeys_valid d hd)]
    refine (hstore.contents_iff _ nofun _).mpr (.inr ⟨d.hkeys, ?_, rfl⟩)
    rw [← d.key_eq (tab.lkeys_valid d hd)]
    exact List.mem_map_of_mem hd
  refine ⟨⟨m, hreset.le, fun i hi => hreset.indexInv.head_used hi, hreset.ascending, hreset.empty⟩, hfound,
    fun d hd => ?_, hstore.end_eq, hstore.tiled, fun key hkey hother => ?_⟩
  · have hlength : d.hkeys.length = 3 := d.hkeys_length
    exact playTrigger_played (List.ne_nil_of_length_pos (by omega)) (by omega) (hfound d hd)
  · rw [lookup_sizes hpos]
    refine (macroIdxLookup_eq_none_iff hreset.indexInv hkey).mpr fun i hi heq => ?_
    obtain ⟨idx, d, hget, -, hentry⟩ := hreset.used i hi
    have hkeyed : ((st.reset (tab.hardware hpos)).index i).key = (defEntry idx d).key :=
      congrArg MacroIdxEntry.key hentry
    exact hother d (List.mem_of_getElem? hget) (heq.symm.trans hkeyed)

/-! ## The key 0 -/

/-- The scan gives a definition above the bound. -/
theorem getNextMacroDefInfoIndex_above {infos : List MacroDefInfo} {lowBound : LogicalKeycode}
    (h : getNextMacroDefInfoIndex infos lowBound ≠ 0xff) :
    ∃ d, infos[getNextMacroDefInfoIndex infos lowBound]? = some d ∧ lowBound < d.lkey := by
  rw [getNextMacroDefInfoIndex] at h ⊢
  split at h
  · exact absurd rfl h
  · next hbound =>
    rw [if_neg hbound]
    rcases (nextDefRound_foldl lowBound infos.zipIdx (0xff, noKey)).2.2 with hsame | ⟨c, hc, habove, heq⟩
    · rw [hsame] at h
      exact absurd rfl h
    · rw [heq]
      exact ⟨c.1, List.mem_zipIdx_iff_getElem?.mp hc, habove⟩

/-- No entry that the reset writes has a trigger that begins with the key 0. -/
theorem resetRounds_head (tab : MacroTable) (index : MacroIndex) (k : Nat) :
    ∀ i < k, (((List.range k).foldl tab.resetRound (index, 0)).1 i).key.head ≠ 0 := by
  induction k with
  | zero => exact fun i hi => absurd hi (Nat.not_lt_zero i)
  | succ k ih =>
    intro i hi
    rw [List.range_succ, List.foldl_append, List.foldl_cons, List.foldl_nil]
    generalize (List.range k).foldl tab.resetRound (index, 0) = st at *
    obtain ⟨e, lb, hround, hhead⟩ : ∃ e lb, tab.resetRound st k = (Function.update st.1 k e, lb) ∧
        e.key.head ≠ 0 := by
      rw [MacroTable.resetRound]
      split
      · exact ⟨_, _, rfl, by decide⟩
      · next hne =>
        obtain ⟨d, hget, habove⟩ := getNextMacroDefInfoIndex_above hne
        refine ⟨_, _, rfl, ?_⟩
        rw [hget]
        intro hzero
        have hlkey : d.lkey = 0 := hzero
        rw [hlkey] at habove
        exact absurd habove (Fin.not_lt_zero _)
    rw [hround]
    dsimp only
    rcases Nat.lt_or_eq_of_le (Nat.le_of_lt_succ hi) with hlt | rfl
    · rw [Function.update_of_ne hlt.ne]
      exact ih i hlt
    · rw [Function.update_self]
      exact hhead

/-- A definition with the key 0 is not found. -/
theorem reset_not_found {d : MacroDefInfo} (hzero : d.lkey = 0) (st : MacroStore) :
    triggerContents tab.sizes (tab.reset st) d.key = none := by
  rw [triggerContents, Option.map_eq_none_iff]
  cases hlookup : macroIdxLookup tab.sizes (tab.reset st).index d.key with
  | none => rfl
  | some i =>
    obtain ⟨hi, hcmp⟩ := bsearch_some hlookup
    have hkey : d.key = ((tab.reset st).index i).key := macroIdxCmp_zero_iff.mp hcmp
    have hhead : d.key.head = 0 := hzero
    exact absurd (hkey ▸ hhead) (resetRounds_head tab st.index tab.macroIndexCount i hi)

/-- The default macros are right after a reset exactly when no trigger is the key 0. -/
theorem defaults_right_iff (tab : MacroTable) (st : MacroStore) :
    tab.Right (tab.reset st) ↔ ∀ d ∈ tab.macroDefInfos, d.lkey ≠ 0 := by
  constructor
  · intro hright d hd hzero
    have hfound := hright.found d hd
    rw [reset_not_found hzero] at hfound
    exact nomatch hfound
  · intro hpos
    exact reset_right hpos st

/-- A table with one macro, on the key 0. -/
def zeroTable : MacroTable where
  macroIndexCount := 50
  macrosSize := 1024
  macroDefInfos := [⟨0, [0x04, 0x05, 0x06], rfl⟩]
  count_pos := kinesis.count_pos
  count_le := kinesis.count_le
  size_ge := kinesis.size_ge
  size_le := kinesis.size_le
  lkeys_nodup := by decide
  lkeys_valid := by decide
  defs_fit_index := by decide
  defs_fit_macros := by decide

theorem defaults_right_zero : ¬ zeroTable.Right (zeroTable.reset ⟨fun _ => emptyEntry, fun _ => 0, none⟩) := by
  intro hright
  have hfound := hright.found ⟨0, [0x04, 0x05, 0x06], rfl⟩ (List.mem_singleton_self _)
  exact absurd (hfound.symm.trans (reset_not_found rfl _)) nofun

end KeyboardFirmware
