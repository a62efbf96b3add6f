/-
  Saving and loading on the packed list.

  A save takes the old block of the slot out and puts the list of the changed keys (`changed`) behind
  the others; it fails when the list is empty or does not fit (`Packed.save_fits`,
  `Packed.save_fails`).  A load merges the keys of a block into the default layout (`merged`), and
  merging the changed keys of a layout gives this layout back (`merged_changed`).
-/
import KeyboardFirmware.Config.Packed

namespace KeyboardFirmware

open Lib

variable {hw : LayoutHardware} {c : Config} {map : Nat → HidKeycode}

/-! ## The changed keys of a layout -/

/-- The keys that differ from the default, of the `k` keys from `l` on. -/
def changed (hw : LayoutHardware) (map : Nat → HidKeycode) : Nat → Nat → List KeyMapping
  | 0, _ => []
  | k + 1, l =>
    if map l ≠ hw.logicalToHidMapDefault l then
      ⟨Fin.ofNat 256 l, map l⟩ :: changed hw map k (l + 1)
    else changed hw map k (l + 1)

theorem mem_changed {m : KeyMapping} : ∀ {k l}, m ∈ changed hw map k l ↔
    ∃ i, l ≤ i ∧ i < l + k ∧ map i ≠ hw.logicalToHidMapDefault i ∧ m = ⟨Fin.ofNat 256 i, map i⟩
  | 0, l => by
    refine ⟨fun h => (nomatch h), ?_⟩
    rintro ⟨i, h1, h2, -⟩
    omega
  | k + 1, l => by
    have hrest := @mem_changed m k (l + 1)
    unfold changed
    constructor
    · intro h
      split at h
      · next hne =>
        rcases List.mem_cons.mp h with rfl | h
        · exact ⟨l, le_refl l, by omega, hne, rfl⟩
        · obtain ⟨i, h1, h2, h3⟩ := hrest.mp h
          exact ⟨i, by omega, by omega, h3⟩
      · obtain ⟨i, h1, h2, h3⟩ := hrest.mp h
        exact ⟨i, by omega, by omega, h3⟩
    · rintro ⟨i, h1, h2, hne, rfl⟩
      rcases Nat.eq_or_lt_of_le h1 with rfl | h1
      · rw [if_pos hne]
        exact List.mem_cons_self
      · have hmem := hrest.mpr ⟨i, h1, by omega, hne, rfl⟩
        split
        · exact List.mem_cons_of_mem _ hmem
        · exact hmem

theorem changed_ascending : ∀ {k l}, l + k ≤ 256 →
    (changed hw map k l).Pairwise fun a b => a.lKey < b.lKey
  | 0, l, _ => List.Pairwise.nil
  | k + 1, l, h => by
    have hrest := @changed_ascending k (l + 1) (by omega)
    unfold changed
    split
    · refine List.pairwise_cons.mpr ⟨fun m hm => ?_, hrest⟩
      obtain ⟨i, h1, h2, -, rfl⟩ := mem_changed.mp hm
      show l % 256 < i % 256
      omega
    · exact hrest

/-- The keys a save stores. -/
abbrev changedKeys (hw : LayoutHardware) (map : Nat → HidKeycode) : List KeyMapping :=
  changed hw map hw.numLogicalKeys 0

theorem changedKeys_saved (h : changedKeys hw map ≠ []) : Saved hw (changedKeys hw map) := by
  have hkeys := hw.keys_le
  refine ⟨h, changed_ascending (by omega), fun m hm => ?_⟩
  obtain ⟨i, -, h2, -, rfl⟩ := mem_changed.mp hm
  show i % 256 < hw.numLogicalKeys
  omega

/-! ## The loop of a save -/

/-- Where the changed keys fit, they are written behind one another from the cursor on. -/
theorem saveLoop_fits (hw : LayoutHardware) (map : Nat → HidKeycode) : ∀ k l (cursor : Byte) (saved : Nat → KeyMapping),
    cursor.val + (changed hw map k l).length ≤ hw.savedMappingCount - 1 →
    ∃ saved', saveLoop hw map k l cursor saved =
        (some (Fin.ofNat 256 (cursor.val + (changed hw map k l).length)), saved') ∧
      Holds saved' cursor (changed hw map k l) ∧ ∀ i < cursor.val, saved' i = saved i
  | 0, l, cursor, saved, _ => by
    refine ⟨saved, Prod.ext (congrArg some (Fin.ext ?_)) rfl, holds_nil, fun _ _ => rfl⟩
    show cursor.val = (cursor.val + 0) % 256
    omega
  | k + 1, l, cursor, saved, h => by
    have hcount := hw.count_le
    unfold saveLoop
    unfold changed at h ⊢
    split
    · next hne =>
      rw [if_pos hne, List.length_cons] at h
      have hnext : (cursor + 1 : Byte).val = cursor.val + 1 := by
        rw [Fin.val_add]
        show (cursor.val + 1) % 256 = _
        omega
      obtain ⟨saved', hloop, hholds, hframe⟩ := saveLoop_fits hw map k (l + 1) (cursor + 1)
        (Function.update saved cursor ⟨Fin.ofNat 256 l, map l⟩) (by omega)
      rw [if_neg (by omega), hloop, hnext, List.length_cons]
      refine ⟨saved', ?_, ?_, fun i hi => ?_⟩
      · rw [show cursor.val + 1 + (changed hw map k (l + 1)).length =
          cursor.val + ((changed hw map k (l + 1)).length + 1) by omega]
      -- the key just written lies before everything the rest of the loop writes
      · have hfirst : saved' cursor = ⟨Fin.ofNat 256 l, map l⟩ := by
          rw [hframe cursor (by omega), Function.update_self]
        rw [hnext] at hholds
        exact holds_cons.mpr ⟨hfirst, hholds⟩
      · rw [hframe i (by omega), Function.update_of_ne (by omega)]
    · next heq =>
      rw [if_neg heq] at h
      exact saveLoop_fits hw map k (l + 1) cursor saved h

/-- Where they do not, the loop gives up; what lies before the cursor stays. -/
theorem saveLoop_full (hw : LayoutHardware) (map : Nat → HidKeycode) : ∀ k l (cursor : Byte) (saved : Nat → KeyMapping),
    cursor.val ≤ hw.savedMappingCount - 1 →
    hw.savedMappingCount - 1 < cursor.val + (changed hw map k l).length →
    ∃ saved', saveLoop hw map k l cursor saved = (none, saved') ∧
      ∀ i < cursor.val, saved' i = saved i
  | 0, l, cursor, saved, hle, h => by
    have : (changed hw map 0 l).length = 0 := rfl
    omega
  | k + 1, l, cursor, saved, hle, h => by
    have hcount := hw.count_le
    unfold saveLoop
    unfold changed at h
    split
    · next hne =>
      rw [if_pos hne, List.length_cons] at h
      split
      · exact ⟨saved, rfl, fun _ _ => rfl⟩
      · next hlt =>
        have hnext : (cursor + 1 : Byte).val = cursor.val + 1 := by
          rw [Fin.val_add]
          show (cursor.val + 1) % 256 = _
          omega
        obtain ⟨saved', hloop, hframe⟩ := saveLoop_full hw map k (l + 1) (cursor + 1)
          (Function.update saved cursor ⟨Fin.ofNat 256 l, map l⟩) (by omega) (by omega)
        refine ⟨saved', hloop, fun i hi => ?_⟩
        rw [hframe i (by omega), Function.update_of_ne (by omega)]
    · next heq =>
      rw [if_neg heq] at h
      exact saveLoop_full hw map k (l + 1) cursor saved hle h

/-! ## Saving a slot -/

section Save

variable {blocks : List Block} {n : Nat} {es : List KeyMapping}

/-- What lies before the end of the packed part is all that the invariant asks of the array. -/
theorem Packed.congr_saved (h : Packed hw c blocks) (saved : Nat → KeyMapping)
    (heq : ∀ i < (entriesOf blocks).length, saved i = c.savedKeyMappings i) :
    Packed hw { c with savedKeyMappings := saved } blocks :=
  { h with holds := h.holds.congr fun i _ hi => heq i (by omega) }

/-- A block written behind the others, with its range put into the slot, is part of the list. -/
theorem Packed.append (h : Packed hw c blocks) (hn : n < hw.numKeyMappingIndices)
    (hnew : n ∉ blocks.map (·.1)) (hes : Saved hw es)
    (hfit : (entriesOf blocks).length + es.length ≤ hw.savedMappingCount - 1)
    (hholds : Holds c.savedKeyMappings (entriesOf blocks).length es) {start end_ : Byte}
    (hstart : start.val = (entriesOf blocks).length)
    (hend : end_.val + 1 = (entriesOf blocks).length + es.length) :
    Packed hw { c with
      savedKeyMappingIndices := Function.update c.savedKeyMappingIndices n ⟨start, end_⟩ }
      (blocks ++ [(n, es)]) := by
  have hne : ∀ b ∈ blocks, b.1 ≠ n := fun b hb hbn => hnew (hbn ▸ List.mem_map_of_mem hb)
  refine
    { nodup := ?_
      slots_lt := ?_
      saved := ?_
      fits := ?_
      holds := ?_
      used := ?_
      unused := ?_ }
  · rw [List.map_append, List.nodup_append]
    refine ⟨h.nodup, List.nodup_singleton n, fun a ha b hb => ?_⟩
    rintro rfl
    obtain rfl : a = n := List.mem_singleton.mp hb
    exact hnew ha
  · intro b hb
    rcases List.mem_append.mp hb with hb | hb
    · exact h.slots_lt b hb
    · exact List.mem_singleton.mp hb ▸ hn
  · intro b hb
    rcases List.mem_append.mp hb with hb | hb
    · exact h.saved b hb
    · exact List.mem_singleton.mp hb ▸ hes
  · simp only [entriesOf_append, entriesOf_cons, entriesOf_nil, List.length_append, List.length_nil]
    omega
  · rw [entriesOf_append, entriesOf_cons, entriesOf_nil, List.append_nil, holds_append]
    rw [Nat.zero_add]
    exact ⟨h.holds, hholds⟩
  · intro pre m ds post heq
    show (Function.update c.savedKeyMappingIndices n ⟨start, end_⟩ m).start.val = _ ∧
      (Function.update c.savedKeyMappingIndices n ⟨start, end_⟩ m).end_.val + 1 = _
    rcases split_append heq with ⟨mid, rfl, rfl⟩ | ⟨mid, rfl, hmid⟩
    · rw [Function.update_of_ne (hne (m, ds) (by simp))]
      exact h.used pre m ds mid rfl
    -- the new block
    · cases mid with
      | nil =>
        obtain ⟨heq, -⟩ := List.cons_eq_cons.mp hmid
        obtain ⟨rfl, rfl⟩ := Prod.ext_iff.mp heq
        rw [Function.update_self, List.append_nil]
        exact ⟨hstart, hend⟩
      | cons b mid => simp at hmid
  · intro i hi hmem
    rw [List.map_append, List.mem_append, not_or] at hmem
    show Function.update _ _ _ _ = _
    rw [Function.update_of_ne fun hin => hmem.2 (by simp [hin])]
    exact h.unused i hi hmem.1

/-- A save that finds enough space: the new block lies behind the others. -/
theorem Packed.save_fits (h : Packed hw c blocks) (hn : n < hw.numKeyMappingIndices)
    (hne : changedKeys hw c.logicalToHidMap ≠ [])
    (hfit : (entriesOf (remove n blocks)).length + (changedKeys hw c.logicalToHidMap).length ≤
      hw.savedMappingCount - 1) :
    ∃ c', configSaveLayout hw c n = (.ok (), c') ∧
      Packed hw c' (remove n blocks ++ [(n, changedKeys hw c.logicalToHidMap)]) ∧
      c'.logicalToHidMap = c.logicalToHidMap := by
  obtain ⟨hdel, hmap⟩ := h.deleted n
  have hcount := hw.count_le
  rw [← hmap] at hne hfit ⊢
  have hpos := List.length_pos_iff.mpr hne
  unfold configSaveLayout
  rw [if_neg (not_le.mpr hn)]
  simp only [hdel.lastEnd, Int.toNat_natCast]
  generalize (configDeleteLayout hw c n).2 = d at *
  generalize hlen : (entriesOf (remove n blocks)).length = len at hfit ⊢
  have hstart : (Fin.ofNat 256 len).val = len := Nat.mod_eq_of_lt (by omega)
  obtain ⟨saved', hloop, hholds, hframe⟩ := saveLoop_fits hw d.logicalToHidMap
    hw.numLogicalKeys 0 (Fin.ofNat 256 len) d.savedKeyMappings (by rw [hstart]; exact hfit)
  rw [hstart] at hloop hholds hframe
  have hend : (Fin.ofNat 256 (len + (changedKeys hw d.logicalToHidMap).length)).val =
      len + (changedKeys hw d.logicalToHidMap).length := Nat.mod_eq_of_lt (by omega)
  have hmoved : Fin.ofNat 256 len ≠
      Fin.ofNat 256 (len + (changedKeys hw d.logicalToHidMap).length) := fun heq => by
    have := congrArg Fin.val heq
    omega
  simp only [hloop, if_pos hmoved]
  refine ⟨_, rfl, ?_, rfl⟩
  have hd' := hdel.congr_saved saved' fun i hi => hframe i (hlen ▸ hi)
  refine hd'.append hn (not_mem_remove n blocks) (changedKeys_saved hne) (hlen ▸ hfit)
    (hlen ▸ hholds) (hstart.trans hlen.symm) ?_
  rw [Fin.val_sub, hend, hlen]
  show (256 - 1 + _) % 256 + 1 = _
  omega

/-- A save that fails has taken the old block of the slot out all the same. -/
theorem Packed.save_fails (h : Packed hw c blocks)
    (hfail : n < hw.numKeyMappingIndices → changedKeys hw c.logicalToHidMap ≠ [] →
      hw.savedMappingCount - 1 <
        (entriesOf (remove n blocks)).length + (changedKeys hw c.logicalToHidMap).length) :
    ∃ msg c', configSaveLayout hw c n = (.error msg, c') ∧ Packed hw c' (remove n blocks) ∧
      c'.logicalToHidMap = c.logicalToHidMap := by
  by_cases hn : n < hw.numKeyMappingIndices
  · obtain ⟨hdel, hmap⟩ := h.deleted n
    rw [← hmap] at hfail ⊢
    have hcount := hw.count_le
    have hpos := hw.count_pos
    have hfits := hdel.fits
    unfold configSaveLayout
    rw [if_neg (not_le.mpr hn)]
    simp only [hdel.lastEnd, Int.toNat_natCast]
    generalize (configDeleteLayout hw c n).2 = d at *
    generalize hlen : (entriesOf (remove n blocks)).length = len at hfits hfail ⊢
    have hstart : (Fin.ofNat 256 len).val = len := Nat.mod_eq_of_lt (by omega)
    by_cases hne : changedKeys hw d.logicalToHidMap = []
    -- nothing to save
    · have hzero : (changed hw d.logicalToHidMap hw.numLogicalKeys 0).length = 0 := by
        rw [show changed hw d.logicalToHidMap hw.numLogicalKeys 0 = [] from hne, List.length_nil]
      obtain ⟨saved', hloop, -, hframe⟩ := saveLoop_fits hw d.logicalToHidMap
        hw.numLogicalKeys 0 (Fin.ofNat 256 len) d.savedKeyMappings (by omega)
      rw [hstart, hzero, Nat.add_zero] at hloop
      simp only [hloop, ne_eq, not_true_eq_false, if_false]
      rw [hstart] at hframe
      exact ⟨_, _, rfl, hdel.congr_saved saved' fun i hi => hframe i (hlen ▸ hi), rfl⟩
    -- no space
    · obtain ⟨saved', hloop, hframe⟩ := saveLoop_full hw d.logicalToHidMap
        hw.numLogicalKeys 0 (Fin.ofNat 256 len) d.savedKeyMappings (by omega)
        (by rw [hstart]; exact hfail hn hne)
      simp only [hloop]
      rw [hstart] at hframe
      exact ⟨_, _, rfl, hdel.congr_saved saved' fun i hi => hframe i (hlen ▸ hi), rfl⟩
  · have hmem : n ∉ blocks.map (·.1) := fun hmem => by
      obtain ⟨b, hb, rfl⟩ := List.mem_map.mp hmem
      exact hn (h.slots_lt b hb)
    rw [remove_of_not_mem hmem]
    refine ⟨msgNoLayout, c, ?_, h, rfl⟩
    unfold configSaveLayout
    exact if_pos (not_lt.mp hn)

end Save

/-! ## Loading a slot -/

/-- The layout a list of saved keys stands for: the default, but for the keys of the list. -/
def merged (hw : LayoutHardware) (es : List KeyMapping) (l : Nat) : HidKeycode :=
  ((es.find? fun m => m.lKey.val = l).map (·.hKey)).getD (hw.logicalToHidMapDefault l)

theorem merged_of_not_mem {es : List KeyMapping} {l : Nat} (h : ∀ m ∈ es, m.lKey.val ≠ l) :
    merged hw es l = hw.logicalToHidMapDefault l := by
  rw [merged, List.find?_eq_none.mpr fun m hm => by simpa using h m hm]
  rfl

/-- **Merging the changed keys of a layout gives this layout back.** -/
theorem merged_changed {l : Nat} (hl : l < hw.numLogicalKeys) :
    merged hw (changedKeys hw map) l = map l := by
  have hkeys := hw.keys_le
  by_cases hdef : map l = hw.logicalToHidMapDefault l
  · rw [hdef]
    refine merged_of_not_mem fun m hm heq => ?_
    obtain ⟨i, -, h2, hne, rfl⟩ := mem_changed.mp hm
    have heq : i % 256 = l := heq
    obtain rfl : i = l := by omega
    exact hne hdef
  · have hmem : (⟨Fin.ofNat 256 l, map l⟩ : KeyMapping) ∈ changedKeys hw map :=
      mem_changed.mpr ⟨l, Nat.zero_le l, by omega, hdef, rfl⟩
    have hfound : ((changedKeys hw map).find? fun m => m.lKey.val = l).isSome := by
      refine List.find?_isSome.mpr ⟨_, hmem, decide_eq_true ?_⟩
      show l % 256 = l
      omega
    obtain ⟨m, hm⟩ := Option.isSome_iff_exists.mp hfound
    rw [merged, hm]
    have heq : m.lKey.val = l := by simpa using List.find?_some hm
    -- every changed key holds what the layout has for it
    obtain ⟨i, -, h2, -, rfl⟩ := mem_changed.mp (List.mem_of_find?_eq_some hm)
    have heq : i % 256 = l := heq
    obtain rfl : i = l := by omega
    rfl

/-- With no saved key left, the loop restores defaults. -/
theorem loadLoop_defaults (saved : Nat → KeyMapping) (end_ offset : Byte) (m : KeyMapping) :
    ∀ k l (map : Nat → HidKeycode), m.lKey.val < l →
      loadLoop hw saved end_ k l offset m map = fun i =>
        if l ≤ i ∧ i < l + k then hw.logicalToHidMapDefault i else map i
  | 0, l, map, _ => by
    funext i
    rw [if_neg (by omega)]
    rfl
  | k + 1, l, map, h => by
    unfold loadLoop
    rw [if_pos (by omega), loadLoop_defaults saved end_ offset m k (l + 1) _ (by omega)]
    funext i
    by_cases hi : i = l
    · subst hi
      rw [if_neg (by omega), Function.update_self, if_pos (by omega)]
    · rw [Function.update_of_ne hi]
      exact if_congr (by omega) rfl rfl

/-- The walk over the logical keys and the saved ones: `m` and the keys `es` behind it are those of
    the slot from `l` on. -/
theorem loadLoop_merged (saved : Nat → KeyMapping) {end_ : Byte} (hlast : end_.val < 255) :
    ∀ k l (offset : Byte) (m : KeyMapping) (es : List KeyMapping) (map : Nat → HidKeycode),
      Holds saved offset es → end_.val + 1 = offset.val + es.length →
      (m :: es).Pairwise (fun a b => a.lKey < b.lKey) → (∀ e ∈ m :: es, l ≤ e.lKey.val) →
      loadLoop hw saved end_ k l offset m map = fun i =>
        if l ≤ i ∧ i < l + k then merged hw (m :: es) i else map i
  | 0, l, offset, m, es, map, _, _, _, _ => by
    funext i
    rw [if_neg (by omega)]
    rfl
  | k + 1, l, offset, m, es, map, hholds, hend, hasc, hge => by
    have hrest := (List.pairwise_cons.mp hasc).1
    have hm := hge m List.mem_cons_self
    unfold loadLoop
    by_cases heq : l = m.lKey.val
    · rw [if_neg (not_not.mpr heq)]
      have hself : merged hw (m :: es) l = m.hKey := by
        rw [merged, List.find?_cons_of_pos (by simpa using heq.symm)]
        rfl
      have hskip : ∀ i, l + 1 ≤ i → merged hw (m :: es) i = merged hw es i := fun i hi => by
        rw [merged, List.find?_cons_of_neg (by simp; omega)]
        rfl
      have hupdate : ∀ i, ¬ l + 1 ≤ i → Function.update map l m.hKey i =
          if l ≤ i ∧ i < l + (k + 1) then merged hw (m :: es) i else map i := fun i hi => by
        by_cases hil : i = l
        · subst hil
          rw [Function.update_self, if_pos (by omega), hself]
        · rw [Function.update_of_ne hil, if_neg (by omega)]
      cases es with
      -- the last saved key
      | nil =>
        have hend : end_.val + 1 = offset.val := hend
        have hgt : ¬ offset ≤ end_ := not_le.mpr (show end_.val < offset.val by omega)
        rw [if_neg hgt, loadLoop_defaults saved end_ offset m k (l + 1) _ (by omega)]
        funext i
        by_cases hi : l + 1 ≤ i
        · rw [hskip i hi, Function.update_of_ne (by omega)]
          exact if_congr (by omega) rfl rfl
        · rw [if_neg (fun h => hi h.1), hupdate i hi]
      | cons e es =>
        rw [List.length_cons] at hend
        obtain ⟨hfirst, hholds⟩ := holds_cons.mp hholds
        have hnext : (offset + 1 : Byte).val = offset.val + 1 := by
          rw [Fin.val_add]
          show (offset.val + 1) % 256 = _
          omega
        have hle : offset ≤ end_ := show offset.val ≤ end_.val by omega
        rw [if_pos hle, hfirst,
          loadLoop_merged saved hlast k (l + 1) (offset + 1) e es _ (hnext ▸ hholds) (by omega)
            (List.pairwise_cons.mp hasc).2 (fun x hx => ?_)]
        · funext i
          by_cases hi : l + 1 ≤ i
          · rw [hskip i hi, Function.update_of_ne (by omega)]
            exact if_congr (by omega) rfl rfl
          · rw [if_neg (fun h => hi h.1), hupdate i hi]
        · have : m.lKey.val < x.lKey.val := hrest x hx
          omega
    -- a key the slot does not list
    · rw [if_pos heq, loadLoop_merged saved hlast k (l + 1) offset m es _ hholds hend hasc
        (fun x hx => ?_)]
      · funext i
        by_cases hi : i = l
        · subst hi
          rw [if_neg (by omega), Function.update_self, if_pos (by omega), merged_of_not_mem]
          intro x hx
          rcases List.mem_cons.mp hx with rfl | hx
          · exact fun h => heq h.symm
          · have : m.lKey.val < x.lKey.val := hrest x hx
            omega
        · rw [Function.update_of_ne hi]
          exact if_congr (by omega) rfl rfl
      · rcases List.mem_cons.mp hx with rfl | hx
        · omega
        · have : m.lKey.val < x.lKey.val := hrest x hx
          omega

/-- What a load does, in terms of the list: the keys of the slot's block are merged into the
    default layout. -/
def loadBlock (hw : LayoutHardware) (blocks : List Block) (c : Config) (n : Nat) :
    Outcome × Config :=
  match blocks.lookup n with
  | none => (.error msgNoLayout, c)
  | some es => (.ok (), { c with logicalToHidMap := fun i =>
      if i < hw.numLogicalKeys then merged hw es i else c.logicalToHidMap i })

/-- **Loading**: the load on the arrays is the load on the list. -/
theorem Packed.load {blocks : List Block} (h : Packed hw c blocks) (n : Nat) :
    configLoadLayout hw c n = loadBlock hw blocks c n := by
  by_cases hmem : n ∈ blocks.map (·.1)
  · obtain ⟨⟨m, es⟩, hb, rfl⟩ := List.mem_map.mp hmem
    obtain ⟨pre, post, rfl⟩ := List.append_of_mem hb
    have hn : ¬ m ≥ hw.numKeyMappingIndices := not_le.mpr (h.slots_lt (m, es) hb)
    obtain ⟨hstart, hend⟩ := h.used pre m es post rfl
    have hsaved := h.saved (m, es) hb
    have hlen := h.length_le
    have hholds := h.holds
    rw [loadBlock, h.lookup_split]
    unfold configLoadLayout
    rw [if_neg hn]
    simp only [if_neg h.start_ne]
    cases es with
    | nil => exact absurd rfl hsaved.nonempty
    | cons e es =>
      simp only [entriesOf_append, entriesOf_cons, List.length_append, List.length_cons] at hlen hend
      rw [entriesOf_append, entriesOf_cons, holds_append, holds_append, Nat.zero_add,
        ← hstart] at hholds
      obtain ⟨hfirst, hes⟩ := holds_cons.mp hholds.2.1
      have hnext : ((c.savedKeyMappingIndices m).start + 1 : Byte).val =
          (c.savedKeyMappingIndices m).start.val + 1 := by
        rw [Fin.val_add]
        show (_ + 1) % 256 = _
        omega
      rw [hfirst, loadLoop_merged c.savedKeyMappings (by omega)
        hw.numLogicalKeys 0 _ e es c.logicalToHidMap (hnext ▸ hes) (by omega) hsaved.ascending
        (fun x _ => Nat.zero_le _)]
      simp only [Nat.zero_le, true_and, Nat.zero_add]
  · rw [loadBlock, lookup_eq_none hmem]
    unfold configLoadLayout
    split
    · rfl
    · next hlt =>
      rw [h.unused n (not_le.mp hlt) hmem]
      exact if_pos rfl

end KeyboardFirmware
