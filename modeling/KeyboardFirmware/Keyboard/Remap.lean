/-
  Remapping on the keyboard cannot lose the special keys.

  The keys whose codes cannot be remapped are those of the default mapping: a remapping is refused for
  such a key, and takes its code from the default mapping of a key that is none (`SpecialsKept`).
  Saved layouts hold only keys that differ from the default, so loading one keeps them as well.  The
  keys that the programming state is handed are logical keys of the hardware (`KeysOk`), since the
  special keys, and with them the layers, stay the same.
-/
import KeyboardFirmware.Config.Layouts
import KeyboardFirmware.Keyboard.Keyboard
import KeyboardFirmware.Keystate.GetKeys
import KeyboardFirmware.Keystate.Layers

namespace KeyboardFirmware

/-! ## The stored layouts -/

/-- The keys that cannot be remapped are those of the default mapping, with the same codes. -/
def KeepsSpecials (hw : LayoutHardware) (map : Nat → HidKeycode) : Prop :=
  ∀ l < hw.numLogicalKeys, NoRemap (map l) ∨ NoRemap (hw.logicalToHidMapDefault l) →
    map l = hw.logicalToHidMapDefault l

/-- A saved key that is not special, neither by its code nor by default. -/
def Ordinary (hw : LayoutHardware) (m : KeyMapping) : Prop :=
  ¬ NoRemap m.hKey ∧ ¬ NoRemap (hw.logicalToHidMapDefault m.lKey)

/-- The live layout keeps the special keys, and so do the saved ones. -/
structure SpecialsKept (hw : LayoutHardware) (c : Config) : Prop where
  map : KeepsSpecials hw c.logicalToHidMap
  saved : ∃ blocks, Packed hw c blocks ∧
    ∀ n es, blocks.lookup n = some es → ∀ m ∈ es, Ordinary hw m

namespace SpecialsKept

variable {hw : LayoutHardware} {c : Config}

theorem keepsSpecials_default {map : Nat → HidKeycode}
    (h : ∀ l < hw.numLogicalKeys, map l = hw.logicalToHidMapDefault l) : KeepsSpecials hw map :=
  fun l hl _ => h l hl

/-- A key that differs from the default is not special. -/
theorem changed_ordinary {map : Nat → HidKeycode} (h : KeepsSpecials hw map) {m : KeyMapping}
    (hm : m ∈ changedKeys hw map) : Ordinary hw m := by
  obtain ⟨l, -, hlt, hne, rfl⟩ := mem_changed.mp hm
  have hkeys := hw.keys_le
  have hval : (Fin.ofNat 256 l).val = l := Nat.mod_eq_of_lt (by omega)
  refine ⟨fun hspecial => hne (h l (by omega) (.inl hspecial)), fun hspecial => ?_⟩
  exact hne (h l (by omega) (.inr (hval ▸ hspecial)))

/-- Ordinary keys merged into the default layout keep the special ones. -/
theorem merged_keeps {es : List KeyMapping} (h : ∀ m ∈ es, Ordinary hw m) :
    KeepsSpecials hw (merged hw es) := by
  intro l hl hspecial
  by_cases hmem : ∀ m ∈ es, m.lKey.val ≠ l
  · exact merged_of_not_mem hmem
  · have hfound : (es.find? fun m => m.lKey.val = l).isSome := by
      rw [List.find?_isSome]
      simpa using hmem
    obtain ⟨m, hm⟩ := Option.isSome_iff_exists.mp hfound
    obtain ⟨hcode, hdefault⟩ := h m (List.mem_of_find?_eq_some hm)
    have heq : m.lKey.val = l := by simpa using List.find?_some hm
    have hmerged : merged hw es l = m.hKey := by rw [merged, hm]; rfl
    rw [hmerged, ← heq] at hspecial
    rcases hspecial with hs | hs
    · exact absurd hs hcode
    · exact absurd hs hdefault

theorem resetDefaults (h : SpecialsKept hw c) : SpecialsKept hw (configResetDefaults hw c) := by
  obtain ⟨blocks, hpacked, hordinary⟩ := h.saved
  exact ⟨keepsSpecials_default fun _ hl => if_pos hl, blocks, hpacked.congr_map _, hordinary⟩

theorem resetFully (hw : LayoutHardware) (c : Config) : SpecialsKept hw (configResetFully hw c) :=
  ⟨keepsSpecials_default fun _ hl => if_pos hl, [], Packed.reset c, fun _ _ h => (nomatch h)⟩

/-- A key that is not special is given a code that is none. -/
theorem saveDefinition (h : SpecialsKept hw c) {lKey : LogicalKeycode} {hKey : HidKeycode}
    (hlt : lKey.val < hw.numLogicalKeys) (hkey : ¬ NoRemap (configGetDefinition c lKey))
    (hcode : ¬ NoRemap hKey) : SpecialsKept hw (configSaveDefinition c lKey hKey) := by
  obtain ⟨blocks, hpacked, hordinary⟩ := h.saved
  have hmap : (configSaveDefinition c lKey hKey).logicalToHidMap =
      Function.update c.logicalToHidMap lKey hKey := rfl
  refine ⟨fun l hl hspecial => ?_, blocks, hpacked.congr_map _, hordinary⟩
  rw [hmap] at hspecial ⊢
  by_cases heq : l = lKey.val
  · subst heq
    have hdefault : ¬ NoRemap (hw.logicalToHidMapDefault lKey) := fun hs =>
      hkey (by rw [configGetDefinition, h.map lKey hlt (.inr hs)]; exact hs)
    rw [Function.update_self] at hspecial
    rcases hspecial with hs | hs
    · exact absurd hs hcode
    · exact absurd hs hdefault
  · rw [Function.update_of_ne heq] at hspecial ⊢
    exact h.map l hl hspecial

theorem save (h : SpecialsKept hw c) (n : Nat) : SpecialsKept hw (configSaveLayout hw c n).2 := by
  obtain ⟨blocks, hpacked, hordinary⟩ := h.saved
  obtain ⟨blocks', hpacked', hmap, hother, hself⟩ := hpacked.save n
  refine ⟨by rw [hmap]; exact h.map, blocks', hpacked', fun m es hes => ?_⟩
  by_cases hmn : m = n
  · subst hmn
    rw [hself es hes]
    exact fun k hk => changed_ordinary h.map hk
  · rw [hother m hmn] at hes
    exact hordinary m es hes

theorem delete (h : SpecialsKept hw c) (n : Nat) :
    SpecialsKept hw (configDeleteLayout hw c n).2 := by
  obtain ⟨blocks, hpacked, hordinary⟩ := h.saved
  obtain ⟨hpacked', hmap⟩ := hpacked.deleted n
  refine ⟨by rw [hmap]; exact h.map, _, hpacked', fun m es hes => ?_⟩
  by_cases hmn : m = n
  · rw [hmn, lookup_remove_self] at hes
    exact (nomatch hes)
  · rw [lookup_remove hmn] at hes
    exact hordinary m es hes

theorem load (h : SpecialsKept hw c) (n : Nat) : SpecialsKept hw (configLoadLayout hw c n).2 := by
  obtain ⟨blocks, hpacked, hordinary⟩ := h.saved
  rw [hpacked.load, loadBlock]
  cases hlookup : blocks.lookup n with
  | none => exact h
  | some es =>
    refine ⟨fun l hl hspecial => ?_, blocks, hpacked.congr_map _, hordinary⟩
    simp only [if_pos hl] at hspecial ⊢
    exact merged_keeps (hordinary n es hlookup) l hl hspecial

end SpecialsKept

/-! ## The key states -/

/-- `logical_to_hid_map_default` at the logical keys. -/
def KeyboardHardware.default (hw : KeyboardHardware) : LogicalKeycode → HidKeycode :=
  fun l => hw.layout.logicalToHidMapDefault l

/-- The table is in order, the layer is one that the hardware has, and the count is that of the default
    mapping. -/
structure KeysOk (hw : KeyboardHardware) (ks : Keystate) : Prop where
  table : TableOk ks
  bits : BitsOk hw.keystate ks
  layer : ks.layer.id.val < hw.numLayers
  count : ks.keyPressCount.val = reportedCount hw.default ks

theorem notify_of_not_noRemap {k : HidKeycode} (h : ¬ NoRemap k) :
    isHidKeyToNotifyAbout k = true := by
  by_cases hlt : k < layerLock
  · rw [isHidKeyToNotifyAbout, decide_eq_true hlt, Bool.true_or]
  · have hno : k = noKey := by
      by_contra hne
      exact h ⟨not_lt.mp hlt, hne⟩
    subst hno
    rfl

/-- Two codes that are the same if one of them is special are reported alike. -/
theorem notify_congr {a b : HidKeycode} (h : NoRemap a ∨ NoRemap b → a = b) :
    isHidKeyToNotifyAbout a = isHidKeyToNotifyAbout b := by
  by_cases hspecial : NoRemap a ∨ NoRemap b
  · rw [h hspecial]
  · obtain ⟨ha, hb⟩ := not_or.mp hspecial
    rw [notify_of_not_noRemap ha, notify_of_not_noRemap hb]

/-- A special key switches to a layer of the hardware. -/
theorem updateLayer_id_lt {layer : Layer} {n : Nat} {key : HidKeycode} (state : Bool)
    (h : layer.id.val < n) (hkeypad : key = layerLock ∨ key = keypadShift → 1 < n)
    (hfunction : key = functionShift → 2 < n) : (updateLayer layer key state).id.val < n := by
  have hzero : 0 < n := Nat.zero_lt_of_lt h
  unfold updateLayer
  split_ifs with hlock _ _ _ hshift _ _ hfn
  · exact hzero
  · exact hkeypad (.inl hlock)
  · exact h
  · exact h
  · exact hkeypad (.inr hshift)
  · exact hzero
  · exact h
  · exact hfunction hfn
  · exact hzero
  all_goals exact h

namespace KeysOk

variable {hw : KeyboardHardware} {ks : Keystate}

theorem init (hw : KeyboardHardware) : KeysOk hw keystateInit where
  table := (keystateInit_ok hw.keystate).1
  bits := (keystateInit_ok hw.keystate).2
  layer := hw.layers_pos
  count := rfl

theorem key_lt (h : KeysOk hw ks) {p : LogicalKeycode} (hp : p ∈ heldKeys ks.keyStates) :
    p.val < hw.keystate.keypadLayerSize := h.bits.debounced p (heldKeys_bit h.table hp)

theorem size_le (hw : KeyboardHardware) {k : Nat} (hk : k < hw.numLayers) :
    (k + 1) * hw.keystate.keypadLayerSize ≤ hw.layout.numLogicalKeys := by
  rw [hw.keys_eq]
  exact Nat.mul_le_mul_right _ hk

/-- A held key is a logical key in the layer. -/
theorem logicalKey_eq (h : KeysOk hw ks) {p : LogicalKeycode} (hp : p ∈ heldKeys ks.keyStates) :
    ∃ k < hw.numLayers,
      (logicalKey hw.keystate ks.layer p).val = p.val + k * hw.keystate.keypadLayerSize ∧
      (logicalKey hw.keystate ks.layer p).val < hw.layout.numLogicalKeys := by
  have hlt := h.key_lt hp
  have hkeys := hw.layout.keys_le
  have hbound : ∀ k < hw.numLayers,
      p.val + k * hw.keystate.keypadLayerSize < hw.layout.numLogicalKeys := fun k hk => by
    have := size_le hw hk
    rw [Nat.add_mul, Nat.one_mul] at this
    omega
  refine ⟨if ks.layer.base then 0 else ks.layer.id.val, ?_, ?_⟩
  · split_ifs
    · exact hw.layers_pos
    · exact h.layer
  · have hk : (if ks.layer.base then 0 else ks.layer.id.val) < hw.numLayers := by
      split_ifs
      · exact hw.layers_pos
      · exact h.layer
    have hval : (logicalKey hw.keystate ks.layer p).val = p.val +
        (if ks.layer.base then 0 else ks.layer.id.val) * hw.keystate.keypadLayerSize :=
      Nat.mod_eq_of_lt (lt_of_lt_of_le (hbound _ hk) (by omega))
    exact ⟨hval, hval ▸ hbound _ hk⟩

/-- Every layer reports the same held keys, under any mapping that keeps the special keys. -/
theorem notify_eq (h : KeysOk hw ks) {map : Nat → HidKeycode} (hmap : KeepsSpecials hw.layout map)
    {p : LogicalKeycode} (hp : p ∈ heldKeys ks.keyStates) :
    isHidKeyToNotifyAbout (map (logicalKey hw.keystate ks.layer p)) =
      isHidKeyToNotifyAbout (hw.default p) := by
  obtain ⟨k, hk, heq, hlt⟩ := h.logicalKey_eq hp
  have haligned := hw.aligned p (h.key_lt hp) k hk
  rw [notify_congr (hmap _ hlt), heq]
  exact notify_congr haligned

theorem hide (h : KeysOk hw ks) (lKey : LogicalKeycode) :
    KeysOk hw (keystateHideKey hw.keystate ks lKey) where
  table := h.table.hide lKey
  bits := { h.bits with }
  layer := h.layer
  count := by rw [reportedCount, heldKeys_hide]; exact h.count

/-- An update under a mapping that keeps the special keys. -/
theorem update (h : KeysOk hw ks) {s : Scan}
    (hkeeps : ∀ p : LogicalKeycode, p.val < hw.keystate.keypadLayerSize →
      NoRemap (s.definition p) ∨ NoRemap (hw.default p) → s.definition p = hw.default p) :
    KeysOk hw (keystateUpdate hw.keystate ks s).1 := by
  obtain ⟨htable, hbits⟩ := (KeyStep.update s).apply_ok h.table h.bits
  have hcount : ∀ {ks : Keystate}, TableOk ks → BitsOk hw.keystate ks →
      reportedCount s.definition ks = reportedCount hw.default ks := fun ht hb => by
    refine List.countP_congr fun p hp => ?_
    rw [notify_congr (hkeeps p (hb.debounced p (heldKeys_bit ht hp)))]
  refine ⟨htable, hbits, ?_, ?_⟩
  · -- the layer changes by the events of special keys
    obtain ⟨hmid, -⟩ := h.table.recorded hw.keystate s
    have hdebounced := (h.bits.scanAndDebounce s).2
    have hslots : ∀ (rest : List KeyState) {layer : Layer},
        (∀ key ∈ rest, key ∈ recordedSlots hw.keystate ks s) → layer.id.val < hw.numLayers →
        (rest.foldl (decodeLayer s.definition) layer).id.val < hw.numLayers := by
      intro rest
      induction rest with
      | nil => exact fun _ hl => hl
      | cons key rest ih =>
        intro layer hrest hl
        refine ih (fun k hk => hrest k (List.mem_cons_of_mem _ hk)) ?_
        unfold decodeLayer
        split_ifs with hno hspecial
        · exact hl
        · have hlt : key.pKey.val < hw.keystate.keypadLayerSize := by
            rcases hmid key (hrest key List.mem_cons_self) with rfl | ⟨-, -, -, hold⟩ |
              ⟨-, -, -, -, hbit, -⟩
            · exact absurd rfl hno
            · exact h.bits.debounced _ hold
            · exact hdebounced _ hbit
          rw [hkeeps key.pKey hlt (.inl hspecial.1)]
          exact updateLayer_id_lt _ hl (hw.keypadLayer key.pKey hlt)
            (hw.functionLayer key.pKey hlt)
        · exact hl
    exact hslots _ (fun _ hk => hk) h.layer
  · obtain ⟨-, -, hnew⟩ := keystateUpdate_count hw.keystate h.table
      (h.count.trans (hcount h.table h.bits).symm)
    exact hnew.trans (hcount htable hbits)

end KeysOk

/-! ## The main loop -/

/-- What a run keeps. -/
structure Kept (hw : KeyboardHardware) (kb : Keyboard) : Prop where
  keys : KeysOk hw kb.keystate
  specials : SpecialsKept hw.layout kb.config
  source : ¬ NoRemap kb.programSrcHkey

namespace Kept

variable {hw : KeyboardHardware} {kb : Keyboard}

theorem config (h : Kept hw kb) {c : Config} (hc : SpecialsKept hw.layout c) :
    Kept hw { kb with config := c } := { h with specials := hc }

theorem withSource (h : Kept hw kb) {k : HidKeycode} (hk : ¬ NoRemap k) :
    Kept hw { kb with programSrcHkey := k } := { h with source := hk }

theorem wait (h : Kept hw kb) (next : State) : Kept hw (kb.wait next) := { h with }

theorem setupNumberFinish (h : Kept hw kb) : Kept hw kb.setupNumberFinish := { h with }

theorem init {config : Config} (h : SpecialsKept hw.layout config) (settings : Settings) :
    Kept hw (keyboardInit config settings) := ⟨.init hw, h, (by decide : ¬ NoRemap 0)⟩

theorem layoutResult (h : Kept hw kb) {r : Outcome × Config}
    (hr : SpecialsKept hw.layout r.2) : Kept hw (kb.layoutResult r) := by
  unfold Keyboard.layoutResult
  split_ifs
  · exact (h.config hr).wait _
  · exact { h.config hr with }

/-- Setting up a number touches none of the three. -/
theorem setupNumber (h : Kept hw kb) (n : Option Byte) {set : Byte → Keyboard}
    (hset : ∀ n, Kept hw (set n)) :
    Kept hw (match n with | some n => (set n).setupNumberFinish | none => kb) := by
  cases n with
  | none => exact h
  | some n => exact (hset n).setupNumberFinish

theorem setupDebounceLen (h : Kept hw kb) (change : Byte → Byte) :
    Kept hw (KeyboardFirmware.setupDebounceLen kb change) := h.setupNumber _ fun _ => { h with }

theorem setupMouseDiv (h : Kept hw kb) (change : Byte → Byte) :
    Kept hw (KeyboardFirmware.setupMouseDiv kb change) := h.setupNumber _ fun _ => { h with }

theorem setupWheelDiv (h : Kept hw kb) (change : Byte → Byte) :
    Kept hw (KeyboardFirmware.setupWheelDiv kb change) := h.setupNumber _ fun _ => { h with }

theorem twoKeyChord (h : Kept hw kb) (key : HidKeycode) :
    ∀ kb', KeyboardFirmware.twoKeyChord hw kb key = some kb' → Kept hw kb' := by
  refine chord_case (h.wait _) ?_
  refine chord_case (h.wait _) ?_
  refine chord_case (.init h.specials _) ?_
  refine chord_case (h.wait _) ?_
  refine chord_case ((h.config h.specials.resetDefaults).wait _) ?_
  refine chord_case (h.wait _) ?_
  refine chord_case (h.setupDebounceLen _) (chord_case (h.setupDebounceLen _) ?_)
  refine chord_case (h.setupMouseDiv _) (chord_case (h.setupMouseDiv _) ?_)
  refine chord_case (h.setupWheelDiv _) (chord_case (h.setupWheelDiv _) ?_)
  exact fun _ hnone => (nomatch hnone)

theorem layoutChord (h : Kept hw kb) (key : HidKeycode) (index : Nat) :
    ∀ kb', KeyboardFirmware.layoutChord hw kb key index = some kb' → Kept hw kb' := by
  refine chord_case (h.layoutResult (h.specials.save _)) ?_
  refine chord_case (h.layoutResult (h.specials.load _)) ?_
  refine chord_case (h.layoutResult (h.specials.delete _)) ?_
  exact fun _ hnone => (nomatch hnone)

theorem resetFully (h : Kept hw kb) : Kept hw (kb.resetFully hw) where
  keys := h.keys
  specials := .resetFully hw.layout kb.config
  source := h.source

theorem threeKeyChord (h : Kept hw kb) (key₀ key₁ : HidKeycode) :
    ∀ kb', KeyboardFirmware.threeKeyChord hw kb key₀ key₁ = some kb' → Kept hw kb' := by
  refine chord_case (h.resetFully.wait _) fun kb' hchord => ?_
  split_ifs at hchord
  exact h.layoutChord _ _ kb' hchord

theorem programChord (h : Kept hw kb) {hidKeys : List HidKeycode} {kb' : Keyboard}
    (hchord : KeyboardFirmware.programChord hw kb hidKeys = some kb') : Kept hw kb' := by
  unfold KeyboardFirmware.programChord at hchord
  split at hchord
  · split_ifs at hchord
    exact h.twoKeyChord _ kb' hchord
  · split_ifs at hchord
    exact h.threeKeyChord _ _ kb' hchord
  · exact (nomatch hchord)

theorem handleStateNormal (h : Kept hw kb) (it : Iteration) :
    Kept hw (KeyboardFirmware.handleStateNormal hw it kb) := by
  unfold KeyboardFirmware.handleStateNormal
  simp only
  split_ifs
  · exact h
  split
  · next hchord => exact h.programChord hchord
  split
  · exact h
  · next hidden _ => exact { h with keys := foldl_hideKey (fun _ key h => h.hide key) hidden h.keys }
  · exact { h with keys := h.keys.hide _ }

/-- With one key counted, the handler is given a logical key of the hardware. -/
theorem pressedKey_lt (h : Kept hw kb) (hcount : kb.keystate.keyPressCount = 1)
    (junk : LogicalKeycode) :
    ((pressedKeys hw kb).headD junk).val < hw.layout.numLogicalKeys := by
  have hlen : 1 ≤ ((heldKeys kb.keystate.keyStates).filter fun p =>
      isHidKeyToNotifyAbout (kb.definition (logicalKey hw.keystate kb.keystate.layer p))).length := by
    have hreported := h.keys.count
    rw [hcount] at hreported
    have hsame : (heldKeys kb.keystate.keyStates).filter (fun p =>
        isHidKeyToNotifyAbout (kb.definition (logicalKey hw.keystate kb.keystate.layer p))) =
        (heldKeys kb.keystate.keyStates).filter fun p => isHidKeyToNotifyAbout (hw.default p) :=
      List.filter_congr fun p hp => h.keys.notify_eq h.specials.map hp
    rw [hsame, ← List.countP_eq_length_filter]
    exact hreported.le
  rw [pressedKeys, getKeys_eq h.keys.table, hcount]
  cases hheld : (heldKeys kb.keystate.keyStates).filter fun p =>
      isHidKeyToNotifyAbout (kb.definition (logicalKey hw.keystate kb.keystate.layer p)) with
  | nil =>
    rw [hheld] at hlen
    exact absurd hlen (by decide)
  | cons p rest =>
    have hp : p ∈ heldKeys kb.keystate.keyStates :=
      List.mem_of_mem_filter (hheld ▸ List.mem_cons_self)
    obtain ⟨-, -, -, hlt⟩ := h.keys.logicalKey_eq hp
    exact hlt

theorem handleStateProgramming (h : Kept hw kb) (it : Iteration) :
    Kept hw (KeyboardFirmware.handleStateProgramming hw it kb) := by
  unfold KeyboardFirmware.handleStateProgramming
  simp only
  split_ifs with hnone htwo _ hspecial hsrc
  · exact h
  · exact h.wait _
  · exact h
  · exact h
  all_goals
    have hone : kb.keystate.keyPressCount = 1 := by
      obtain ⟨hzero, hle⟩ := not_or.mp hnone
      have hle : kb.keystate.keyPressCount.val ≤ 2 := not_lt.mp hle
      have hzero : kb.keystate.keyPressCount.val ≠ 0 := fun h => hzero (Fin.ext h)
      have htwo : kb.keystate.keyPressCount.val ≠ 2 := fun h => htwo (Fin.ext h)
      exact Fin.ext (show kb.keystate.keyPressCount.val = 1 by omega)
    have hlt := h.pressedKey_lt hone (it.junk 0)
  -- the source: its default code, of a key that is not special
  · refine Kept.wait (h.withSource fun hs => hspecial ?_) _
    rw [configGetDefinition, h.specials.map _ hlt (.inr hs)]
    exact hs
  · exact (h.config (h.specials.saveDefinition hlt hspecial h.source)).wait _

theorem dispatch (h : Kept hw kb) (it : Iteration) :
    Kept hw (KeyboardFirmware.dispatch hw it kb).1 := by
  unfold KeyboardFirmware.dispatch
  split
  · exact h.handleStateNormal it
  · simp only
    split_ifs
    · exact { h with }
    · exact h
  · simp only
    split_ifs
    · exact { h with }
    · exact h
  · exact h.handleStateProgramming it
  · exact h.handleStateProgramming it
  · unfold handleStateMacroRecordTrigger
    simp only
    split_ifs <;> exact { h with }
  · unfold handleStateMacroRecord
    split_ifs <;> exact { h with }
  · exact h
  · exact h

theorem updateKeys (h : Kept hw kb) (it : Iteration) :
    Kept hw (KeyboardFirmware.updateKeys hw it kb) := by
  unfold KeyboardFirmware.updateKeys
  cases it.scan with
  | none => exact h
  | some scan =>
    have hupdate : KeysOk hw (keystateUpdate hw.keystate kb.keystate
        { scan with definition := kb.definition }).1 := by
      refine h.keys.update fun p hp => h.specials.map p (lt_of_lt_of_le hp ?_)
      have := KeysOk.size_le hw hw.layers_pos
      omega
    simp only
    split_ifs <;> exact { h with keys := hupdate }

theorem saveNumbers (h : Kept hw kb) : Kept hw (KeyboardFirmware.saveNumbers kb) := by
  unfold KeyboardFirmware.saveNumbers
  split_ifs
  · exact { h with }
  · exact h

theorem fillKeyboardReport (h : Kept hw kb) (it : Iteration) :
    Kept hw (KeyboardFirmware.fillKeyboardReport it kb) := by
  unfold KeyboardFirmware.fillKeyboardReport
  split_ifs
  · exact h.wait _
  · exact h

theorem beforeDispatch (h : Kept hw kb) (it : Iteration) :
    Kept hw (KeyboardFirmware.beforeDispatch hw it kb) := by
  have hupdated := h.updateKeys it
  unfold KeyboardFirmware.beforeDispatch
  refine Kept.saveNumbers ?_
  split_ifs
  · exact { hupdated with }
  · exact hupdated

/-- **Step**: an iteration of the main loop keeps the special keys. -/
theorem mainLoop (h : Kept hw kb) (it : Iteration) :
    Kept hw (KeyboardFirmware.mainLoop hw it kb).1 :=
  ((h.beforeDispatch it).dispatch it).fillKeyboardReport it

/-- **Run**: and so does every run of it. -/
theorem runLoop (h : Kept hw kb) (its : List Iteration) :
    Kept hw (KeyboardFirmware.runLoop hw kb its) := by
  induction its generalizing kb with
  | nil => exact h
  | cons it its ih => exact ih (h.mainLoop it)

end Kept

/-- **Remapping keeps the special keys.**  After every run of the main loop from a full reset, a logical
    key carries a code that cannot be remapped exactly if it does so by default, and then this code is
    the same. -/
theorem remapping_keeps_specials (hw : KeyboardHardware) (c : Config) (settings : Settings)
    (its : List Iteration) :
    let kb := runLoop hw (keyboardInit (configResetFully hw.layout c) settings) its
    ∀ l : LogicalKeycode, l.val < hw.layout.numLogicalKeys →
      (NoRemap (configGetDefinition kb.config l) ↔ NoRemap (hw.default l)) ∧
      (NoRemap (hw.default l) → configGetDefinition kb.config l = hw.default l) := by
  intro kb l hl
  have h : Kept hw kb := (Kept.init (.resetFully hw.layout c) settings).runLoop its
  refine ⟨⟨fun hs => ?_, fun hs => ?_⟩, fun hs => h.specials.map l hl (.inr hs)⟩
  · rw [configGetDefinition, h.specials.map l hl (.inl hs)] at hs
    exact hs
  · rw [configGetDefinition, h.specials.map l hl (.inr hs)]
    exact hs

end KeyboardFirmware
