/-
  The enumeration of the held keys against their count.

  `key_press_count` classifies a key by its definition in the base layer, `keystate_get_keys` by the
  one in the current layer.  Between updates the loop writes the held keys that are reported in the
  current layer, as many of them as the count allows (`getKeys_eq`); so it writes the count in full
  exactly if there are that many (`getKeys_complete_iff`).
-/
import KeyboardFirmware.Keystate.Events

namespace KeyboardFirmware

variable {hw : KeystateHardware}

/-- The number of held keys that are reported in the current layer. -/
def reportedInLayer (hw : KeystateHardware) (definition : LogicalKeycode → HidKeycode)
    (ks : Keystate) : Nat :=
  (heldKeys ks.keyStates).countP fun p =>
    isHidKeyToNotifyAbout (definition (logicalKey hw ks.layer p))

/-- What a caller with an array of `key_press_count` entries relies on: all of them are written, and
    with different keys.  (Two keys may well have one HID code.) -/
def GetsAllKeys (hw : KeystateHardware) (definition : LogicalKeycode → HidKeycode)
    (ks : Keystate) : Prop :=
  ∀ ktype, ktype = .physical ∨ ktype = .logical →
    (keystateGetKeys hw ks definition ktype).length = ks.keyPressCount.val ∧
      (keystateGetKeys hw ks definition ktype).Nodup

/-- The code of a physical key of the given type. -/
def keycodeOf (hw : KeystateHardware) (definition : LogicalKeycode → HidKeycode) (layer : Layer)
    (ktype : KeycodeType) (p : LogicalKeycode) : Byte :=
  extractKeycode hw definition layer ⟨p, false, false, false⟩ ktype

/-- The loop takes the first of the keys that are reported in the current layer. -/
theorem getKeysLoop_eq (definition : LogicalKeycode → HidKeycode) (layer : Layer)
    (ktype : KeycodeType) : ∀ (slots : List KeyState) (room : Nat),
      (∀ key ∈ slots, key = emptyKeyState ∨ (key.pKey ≠ noKey ∧ key.state = true)) →
      getKeysLoop hw definition layer ktype slots room =
        (((heldKeys slots).filter fun p =>
          isHidKeyToNotifyAbout (definition (logicalKey hw layer p))).take room).map
          (keycodeOf hw definition layer ktype)
  | [], room, _ => by
    rw [getKeysLoop, heldKeys_nil, List.filter_nil, List.take_nil, List.map_nil]
  | _ :: _, 0, _ => by rw [getKeysLoop, List.take_zero, List.map_nil]
  | key :: slots, room + 1, h => by
    have hrest : ∀ k ∈ slots, k = emptyKeyState ∨ (k.pKey ≠ noKey ∧ k.state = true) :=
      fun k hk => h k (List.mem_cons_of_mem _ hk)
    rw [getKeysLoop]
    rcases h key List.mem_cons_self with rfl | ⟨hne, hstate⟩
    · rw [heldKeys_cons_free rfl]
      exact getKeysLoop_eq definition layer ktype slots (room + 1) hrest
    · rw [hstate, heldKeys_cons_used hne]
      show (if !isHidKeyToNotifyAbout (definition (logicalKey hw layer key.pKey)) then _ else _) = _
      rcases hnotify : isHidKeyToNotifyAbout (definition (logicalKey hw layer key.pKey))
      · rw [List.filter_cons_of_neg (by rw [hnotify]; exact Bool.false_ne_true)]
        exact getKeysLoop_eq definition layer ktype slots (room + 1) hrest
      · rw [List.filter_cons_of_pos (by rw [hnotify]), List.take_succ_cons, List.map_cons,
          ← getKeysLoop_eq definition layer ktype slots room hrest]
        show _ :: _ = _ :: _
        cases ktype <;> rfl

theorem getKeys_eq {ks : Keystate} (h : TableOk ks) (hw : KeystateHardware)
    (definition : LogicalKeycode → HidKeycode) (ktype : KeycodeType) :
    keystateGetKeys hw ks definition ktype = (((heldKeys ks.keyStates).filter fun p =>
      isHidKeyToNotifyAbout (definition (logicalKey hw ks.layer p))).take ks.keyPressCount.val).map
      (keycodeOf hw definition ks.layer ktype) :=
  getKeysLoop_eq definition ks.layer ktype ks.keyStates ks.keyPressCount.val fun key hkey =>
    (h.slots key hkey).imp_right fun hused => ⟨hused.1, hused.2.2.1⟩

/-- In one layer different physical keys have different codes of these two types. -/
theorem keycodeOf_injective (definition : LogicalKeycode → HidKeycode) (layer : Layer)
    {ktype : KeycodeType} (htype : ktype = .physical ∨ ktype = .logical) :
    Function.Injective (keycodeOf hw definition layer ktype) := by
  intro p q hpq
  rcases htype with rfl | rfl
  · exact hpq
  · have hval : (p.val + (if layer.base then 0 else layer.id.val) * hw.keypadLayerSize) % 256 =
        (q.val + (if layer.base then 0 else layer.id.val) * hw.keypadLayerSize) % 256 :=
      congrArg Fin.val hpq
    generalize (if layer.base then 0 else layer.id.val) * hw.keypadLayerSize = offset at hval
    have hp := p.isLt
    have hq := q.isLt
    exact Fin.ext (by omega)

/-- The count is met exactly if enough keys are reported in the current layer. -/
theorem getsAllKeys_iff {ks : Keystate} (h : TableOk ks) (hw : KeystateHardware)
    (definition : LogicalKeycode → HidKeycode) :
    GetsAllKeys hw definition ks ↔ ks.keyPressCount.val ≤ reportedInLayer hw definition ks := by
  have hlength : ∀ ktype, (keystateGetKeys hw ks definition ktype).length =
      min ks.keyPressCount.val (reportedInLayer hw definition ks) := fun ktype => by
    rw [getKeys_eq h, List.length_map, List.length_take, reportedInLayer,
      List.countP_eq_length_filter]
  constructor
  · intro hall
    have hlen := (hall .logical (.inr rfl)).1
    rw [hlength] at hlen
    exact hlen ▸ Nat.min_le_right _ _
  · intro hle ktype htype
    refine ⟨(hlength ktype).trans (Nat.min_eq_left hle), ?_⟩
    rw [getKeys_eq h]
    refine List.Nodup.map (keycodeOf_injective definition ks.layer htype) ?_
    exact (h.nodup.filter _).sublist (List.take_sublist _ _)

/-- **`keystate_get_keys` and `key_press_count`.**  After every run, and under every mapping, the
    enumeration fills `key_press_count` entries with different keys exactly if at least that many held
    keys are reported in the current layer.  When the mapping has not changed while keys were held,
    this says that the current layer reports no fewer of them than the base layer. -/
theorem getKeys_complete_iff (hw : KeystateHardware) (definition : LogicalKeycode → HidKeycode)
    (steps : List KeyStep) :
    (∀ d, GetsAllKeys hw d (runKeys hw keystateInit steps).1 ↔
      (runKeys hw keystateInit steps).1.keyPressCount.val ≤
        reportedInLayer hw d (runKeys hw keystateInit steps).1) ∧
    (SteadyMapping hw keystateInit definition steps →
      (GetsAllKeys hw (lastDefinition definition steps) (runKeys hw keystateInit steps).1 ↔
        reportedCount (lastDefinition definition steps) (runKeys hw keystateInit steps).1 ≤
          reportedInLayer hw (lastDefinition definition steps) (runKeys hw keystateInit steps).1)) := by
  obtain ⟨hok, hbits⟩ := keystateInit_ok hw
  have htable := (runKeys_table steps hok hbits).1.1
  refine ⟨fun d => getsAllKeys_iff htable hw d, fun hsteady => ?_⟩
  have h := (eventsOk_init hw definition).run steps hsteady
  rw [getsAllKeys_iff htable, h.count]

/-- The default mapping of the K80CS with the layer lock on A of the keypad layer. -/
def lockOnKeypadA (l : LogicalKeycode) : HidKeycode :=
  if l = 84 then layerLock else k80csLayout.logicalToHidMapDefault l

/-- The keypad shift and A are held under that mapping: A counts as a pressed key, but no key is
    written. -/
theorem getKeys_misses_key :
    let steps := List.replicate 3 (KeyStep.update ⟨3, by decide, by decide, lockOnKeypadA,
      pressing k80csKeystate [2, 4]⟩)
    (runKeys k80csKeystate keystateInit steps).1.keyPressCount = 1 ∧
      keystateGetKeys k80csKeystate (runKeys k80csKeystate keystateInit steps).1 lockOnKeypadA
        .logical = [] ∧
      ¬ GetsAllKeys k80csKeystate lockOnKeypadA (runKeys k80csKeystate keystateInit steps).1 := by
  refine ⟨by decide +kernel, by decide +kernel, fun hall => ?_⟩
  exact absurd (hall .logical (.inr rfl)).1 (by decide +kernel)

end KeyboardFirmware
