/-
  The layer flags follow the held keys.

  The flags are set and cleared by events of the special keys, several of them in one update and in
  the order of the slots.  Halfway through that pass a flag is backed by a slot that is pressed, or by
  one whose event is still to come (`Backed`); `decodeLayer_inv` carries this over one slot, and at
  the end of the pass no event is left.
-/
import KeyboardFirmware.Keystate.Table

namespace KeyboardFirmware

variable {hw : KeystateHardware}

/-- The code is that of the shift key of layer `id`. -/
def ShiftOf (id : Fin 64) (h : HidKeycode) : Prop :=
  (h = keypadShift ∧ id = 1) ∨ (h = functionShift ∧ id = 2)

/-- The keys that force the base layer. -/
def ForcesBase (h : HidKeycode) : Prop := h = programKey ∨ h = macroShift

/-- The layer flags fit the held keys. -/
structure LayerOk (definition : LogicalKeycode → HidKeycode) (ks : Keystate) : Prop where
  shift : ks.layer.lock = false → ks.layer.id ≠ 0 →
    ∃ p ∈ heldKeys ks.keyStates, ShiftOf ks.layer.id (definition p)
  lock : ks.layer.lock = true → ks.layer.id ≠ 0
  base : ks.layer.base = true → ∃ p ∈ heldKeys ks.keyStates, ForcesBase (definition p)

/-- Two mappings agree on which physical keys are special, and in what way. -/
def SameSpecials (hw : KeystateHardware) (d d' : LogicalKeycode → HidKeycode) : Prop :=
  ∀ p : LogicalKeycode, p.val < hw.keypadLayerSize → NoRemap (d p) ∨ NoRemap (d' p) → d p = d' p

theorem ShiftOf.noRemap {id : Fin 64} {h : HidKeycode} (hs : ShiftOf id h) : NoRemap h := by
  rcases hs with ⟨rfl, -⟩ | ⟨rfl, -⟩ <;> decide

theorem ForcesBase.noRemap {h : HidKeycode} (hb : ForcesBase h) : NoRemap h := by
  rcases hb with rfl | rfl <;> decide

/-! ## The pass over the slots -/

/-- One of the `slots` has a code with `Q`, and is pressed or among the `rest` still to come. -/
def Backed (d : LogicalKeycode → HidKeycode) (slots rest : List KeyState)
    (Q : HidKeycode → Prop) : Prop :=
  ∃ key ∈ slots, key.pKey ≠ noKey ∧ Q (d key.pKey) ∧ (key.state = true ∨ key ∈ rest)

/-- The flags in the middle of the pass. -/
structure LayerInv (d : LogicalKeycode → HidKeycode) (slots rest : List KeyState)
    (layer : Layer) : Prop where
  shift : layer.lock = false → layer.id ≠ 0 → Backed d slots rest (ShiftOf layer.id)
  lock : layer.lock = true → layer.id ≠ 0
  base : layer.base = true → Backed d slots rest ForcesBase

section Pass

variable {d : LogicalKeycode → HidKeycode} {slots rest : List KeyState} {key : KeyState}
  {Q : HidKeycode → Prop}

/-- A backing outlives the slot at hand if this slot is pressed, or is no such key. -/
theorem Backed.next (h : Backed d slots (key :: rest) Q)
    (hkey : key.pKey ≠ noKey → Q (d key.pKey) → key.state = true) : Backed d slots rest Q := by
  obtain ⟨k, hk, hne, hQ, hlive⟩ := h
  refine ⟨k, hk, hne, hQ, ?_⟩
  rcases hlive with hstate | hmem
  · exact .inl hstate
  · rcases List.mem_cons.mp hmem with rfl | hmem
    · exact .inl (hkey hne hQ)
    · exact .inr hmem

/-- A pressed slot of the right kind backs a flag. -/
theorem Backed.of_pressed (hmem : key ∈ slots) (hne : key.pKey ≠ noKey) (hQ : Q (d key.pKey))
    (hstate : key.state = true) : Backed d slots rest Q := ⟨key, hmem, hne, hQ, .inl hstate⟩

/-- The event of a special key whose code is `h` keeps the flags backed. -/
theorem updateLayer_inv {layer : Layer} (h : LayerInv d slots (key :: rest) layer)
    (hmem : key ∈ slots) (hne : key.pKey ≠ noKey) :
    LayerInv d slots rest (updateLayer layer (d key.pKey) key.state) := by
  -- a flag that a key of another kind backs stays backed
  have hother : ∀ {Q : HidKeycode → Prop}, ¬ Q (d key.pKey) → Backed d slots (key :: rest) Q →
      Backed d slots rest Q := fun hQ hb => hb.next fun _ h => absurd h hQ
  unfold updateLayer
  by_cases hlock : d key.pKey = layerLock
  · have hbase : layer.base = true → Backed d slots rest ForcesBase := fun hb =>
      hother (by rw [hlock]; unfold ForcesBase; decide) (h.base hb)
    rw [if_pos hlock]
    split_ifs with hstate hlocked hid
    · exact ⟨fun _ hid => absurd rfl hid, fun hl => Bool.noConfusion hl, hbase⟩
    · exact ⟨fun hl => Bool.noConfusion hl, fun _ => (by decide : (1 : Fin 64) ≠ 0), hbase⟩
    · exact ⟨fun hl => Bool.noConfusion hl, fun _ => hid, hbase⟩
    -- the release of a lock key is ignored
    · refine ⟨fun hl hid => hother ?_ (h.shift hl hid), h.lock, hbase⟩
      rw [hlock]
      rintro (⟨hs, -⟩ | ⟨hs, -⟩)
      · exact absurd hs (by decide)
      · exact absurd hs (by decide)
  -- the two shift keys differ in their layer only
  have hshift : ∀ id : Fin 64, id ≠ 0 → ShiftOf id (d key.pKey) →
      LayerInv d slots rest (if key.state then { layer with id := id }
        else if !layer.lock then { layer with id := 0 } else layer) := by
    intro id hid hs
    have hbase : layer.base = true → Backed d slots rest ForcesBase := fun hb => by
      refine hother ?_ (h.base hb)
      rcases hs with ⟨hs, -⟩ | ⟨hs, -⟩ <;> rw [hs] <;> unfold ForcesBase <;> decide
    split_ifs with hstate hlocked
    · exact ⟨fun _ _ => .of_pressed hmem hne hs hstate, fun _ => hid, hbase⟩
    · refine ⟨fun _ hid => absurd rfl hid, fun hl => ?_, hbase⟩
      rw [Bool.not_eq_true'] at hlocked
      exact absurd (hl.symm.trans hlocked) (by decide)
    · refine ⟨fun hl => ?_, h.lock, hbase⟩
      exact absurd (by simpa using hl) hlocked
  rw [if_neg hlock]
  by_cases hkeypad : d key.pKey = keypadShift
  · rw [if_pos hkeypad]
    exact hshift 1 (by decide) (.inl ⟨hkeypad, rfl⟩)
  rw [if_neg hkeypad]
  by_cases hfunction : d key.pKey = functionShift
  · rw [if_pos hfunction]
    exact hshift 2 (by decide) (.inr ⟨hfunction, rfl⟩)
  rw [if_neg hfunction]
  have hnoShift : ∀ id, ¬ ShiftOf id (d key.pKey) := by
    rintro id (⟨hs, -⟩ | ⟨hs, -⟩)
    · exact hkeypad hs
    · exact hfunction hs
  split_ifs with hforces
  · refine ⟨fun hl hid => hother (hnoShift _) (h.shift hl hid), h.lock, fun hstate => ?_⟩
    exact .of_pressed hmem hne hforces.symm hstate
  · exact ⟨fun hl hid => hother (hnoShift _) (h.shift hl hid), h.lock, fun hb =>
      hother (fun hf => hforces hf.symm) (h.base hb)⟩

/-- **Slot step**: a slot that is pressed, or was, keeps the flags backed. -/
theorem decodeLayer_inv {layer : Layer} (h : LayerInv d slots (key :: rest) layer)
    (hmem : key ∈ slots) (hlive : key.pKey ≠ noKey → key.state = true ∨ key.prevState = true) :
    LayerInv d slots rest (decodeLayer d layer key) := by
  unfold decodeLayer
  split_ifs with hne hspecial
  · have hskip : ∀ {Q : HidKeycode → Prop}, Backed d slots (key :: rest) Q → Backed d slots rest Q :=
      fun hb => hb.next fun hne' => absurd hne hne'
    exact ⟨fun hl hid => hskip (h.shift hl hid), h.lock, fun hb => hskip (h.base hb)⟩
  · exact updateLayer_inv h hmem hne
  -- no event: a special key has the state it had
  · have hstate : NoRemap (d key.pKey) → key.state = true := fun hs => by
      have heq : key.state = key.prevState := by
        by_contra hdiff
        exact hspecial ⟨hs, hdiff⟩
      rcases hlive hne with hstate | hprev
      · exact hstate
      · exact heq.trans hprev
    exact ⟨fun hl hid => (h.shift hl hid).next fun _ hs => hstate hs.noRemap, h.lock,
      fun hb => (h.base hb).next fun _ hf => hstate hf.noRemap⟩

/-- **The pass**: at its end every flag is backed by a pressed slot. -/
theorem foldl_decodeLayer_inv (d : LogicalKeycode → HidKeycode) (slots : List KeyState) :
    ∀ (rest : List KeyState) {layer : Layer}, (∀ key ∈ rest, key ∈ slots ∧
      (key.pKey ≠ noKey → key.state = true ∨ key.prevState = true)) →
    LayerInv d slots rest layer → LayerInv d slots [] (rest.foldl (decodeLayer d) layer)
  | [], _, _, h => h
  | key :: rest, _, hrest, h => by
    obtain ⟨hmem, hlive⟩ := hrest key List.mem_cons_self
    exact foldl_decodeLayer_inv d slots rest (fun k hk => hrest k (List.mem_cons_of_mem _ hk))
      (decodeLayer_inv h hmem hlive)

end Pass

/-! ## Updates and runs -/

/-- **Step**: an update keeps the flags in line with the held keys. -/
theorem LayerOk.update {definition : LogicalKeycode → HidKeycode} {ks : Keystate}
    (h : LayerOk definition ks) (htable : TableOk ks) (hbits : BitsOk hw ks) {s : Scan}
    (hspecials : SameSpecials hw definition s.definition) :
    LayerOk definition (keystateUpdate hw ks s).1 := by
  obtain ⟨hmid, -, taken, -, hperm, -⟩ := htable.recorded hw s
  -- a held key has its slot among those of the pass, and its code is the same there
  have hstart : ∀ {Q : HidKeycode → Prop}, (∀ c, Q c → NoRemap c) →
      (∃ p ∈ heldKeys ks.keyStates, Q (definition p)) →
      Backed s.definition (recordedSlots hw ks s) (recordedSlots hw ks s) Q := by
    rintro Q hQ ⟨p, hp, hcode⟩
    have hlt := hbits.debounced p (heldKeys_bit htable hp)
    rw [hspecials p hlt (.inl (hQ _ hcode))] at hcode
    obtain ⟨hne, key, hkey, rfl⟩ :=
      mem_heldKeys.mp (hperm.mem_iff.mpr (List.mem_append_left _ hp))
    exact ⟨key, hkey, hne, hcode, .inr hkey⟩
  -- and a pressed slot at the end of the pass is one of a held key
  have hfinish : ∀ {Q : HidKeycode → Prop}, (∀ c, Q c → NoRemap c) →
      Backed s.definition (recordedSlots hw ks s) [] Q →
      ∃ p ∈ heldKeys (keystateUpdate hw ks s).1.keyStates, Q (definition p) := by
    rintro Q hQ ⟨key, hkey, hne, hcode, hstate | hmem⟩
    · have hbit : (scanAndDebounce hw ks s).debouncedBitfield key.pKey = true := by
        rcases hmid key hkey with rfl | ⟨-, -, heq, -⟩ | ⟨-, -, -, -, hbit, -⟩
        · exact absurd rfl hne
        · exact heq.symm.trans hstate
        · exact hbit
      refine ⟨key.pKey, ?_, ?_⟩
      · rw [heldKeys_update s hw htable]
        exact List.mem_filter.mpr ⟨mem_heldKeys.mpr ⟨hne, key, hkey, rfl⟩, hbit⟩
      · rw [hspecials key.pKey ((hbits.scanAndDebounce s).2 _ hbit) (.inr (hQ _ hcode))]
        exact hcode
    · exact (nomatch hmem)
  have hpass := foldl_decodeLayer_inv s.definition (recordedSlots hw ks s)
    (recordedSlots hw ks s) (fun key hkey => ⟨hkey, fun hne => ?_⟩)
    ⟨fun hl hid => hstart (fun _ => ShiftOf.noRemap) (h.shift hl hid), h.lock,
      fun hb => hstart (fun _ => ForcesBase.noRemap) (h.base hb)⟩
  · exact ⟨fun hl hid => hfinish (fun _ => ShiftOf.noRemap) (hpass.shift hl hid), hpass.lock,
      fun hb => hfinish (fun _ => ForcesBase.noRemap) (hpass.base hb)⟩
  · rcases hmid key hkey with rfl | ⟨-, hprev, -⟩ | ⟨-, -, hstate, -⟩
    · exact absurd rfl hne
    · exact .inr hprev
    · exact .inl hstate

/-- **Run**: the flags stay in line with the held keys. -/
theorem LayerOk.run {definition : LogicalKeycode → HidKeycode} :
    ∀ (steps : List KeyStep) {ks : Keystate}, LayerOk definition ks → TableOk ks → BitsOk hw ks →
      (∀ scan, KeyStep.update scan ∈ steps → SameSpecials hw definition scan.definition) →
      LayerOk definition (runKeys hw ks steps).1
  | [], _, h, _, _, _ => h
  | step :: steps, ks, h, htable, hbits, hspecials => by
    obtain ⟨htable', hbits'⟩ := step.apply_ok htable hbits
    refine LayerOk.run steps ?_ htable' hbits' fun scan hscan =>
      hspecials scan (List.mem_cons_of_mem _ hscan)
    cases step with
    | update scan => exact h.update htable hbits (hspecials scan List.mem_cons_self)
    | hide lKey =>
      have hheld := heldKeys_hide hw ks lKey
      exact ⟨by rw [KeyStep.apply, hheld]; exact h.shift, h.lock,
        by rw [KeyStep.apply, hheld]; exact h.base⟩

/-- **No stuck layer.**  In every run in which the special keys keep their codes, an unlocked layer
    other than the base has its shift key held, a lock is of such a layer, and a forced base layer has
    a key held that forces it; so with no key held and no lock the base layer is active. -/
theorem no_stuck_layer (hw : KeystateHardware) (definition : LogicalKeycode → HidKeycode)
    (steps : List KeyStep)
    (hspecials : ∀ scan, KeyStep.update scan ∈ steps → SameSpecials hw definition scan.definition) :
    LayerOk definition (runKeys hw keystateInit steps).1 ∧
      (heldKeys (runKeys hw keystateInit steps).1.keyStates = [] →
        (runKeys hw keystateInit steps).1.layer.lock = false →
        layerId (runKeys hw keystateInit steps).1.layer = 0) := by
  obtain ⟨htable, hbits⟩ := keystateInit_ok hw
  have hinit : LayerOk definition keystateInit :=
    ⟨fun _ hid => absurd rfl hid, fun hl => Bool.noConfusion hl, fun hb => Bool.noConfusion hb⟩
  have h := hinit.run steps htable hbits hspecials
  refine ⟨h, fun hnone hlock => ?_⟩
  generalize (runKeys hw keystateInit steps).1 = ks at h hnone hlock ⊢
  have hbase : ks.layer.base = false := by
    by_contra hb
    obtain ⟨p, hp, -⟩ := h.base (by simpa using hb)
    rw [hnone] at hp
    exact (nomatch hp)
  have hid : ks.layer.id = 0 := by
    by_contra hid
    obtain ⟨p, hp, -⟩ := h.shift hlock hid
    rw [hnone] at hp
    exact (nomatch hp)
  rw [layerId, hbase, hid]
  rfl

/-- On the K80CS with its default mapping: the keypad shift of the left hand is pressed and released
    while the lock key is down. -/
theorem no_stuck_layer_k80cs :
    let steps := List.replicate 3 (k80csScan [2]) ++ List.replicate 3 (k80csScan [2, 1]) ++
      List.replicate 3 (k80csScan [1])
    (runKeys k80csKeystate keystateInit steps).1.layer = ⟨false, true, 1⟩ ∧
      LayerOk (fun l => k80csLayout.logicalToHidMapDefault l)
        (runKeys k80csKeystate keystateInit steps).1 :=
  ⟨by decide +kernel, (no_stuck_layer k80csKeystate
    (fun l => k80csLayout.logicalToHidMapDefault l) _ (by
      simp only [k80csScan, List.mem_append, List.mem_replicate, KeyStep.update.injEq]
      rintro scan ((⟨-, rfl⟩ | ⟨-, rfl⟩) | ⟨-, rfl⟩) <;> exact fun _ _ _ => rfl)).1⟩

/-! ## The last event decides -/

/-- The shift keys of the layers. -/
def ShiftsLayer (h : HidKeycode) : Prop := h = keypadShift ∨ h = functionShift

instance : DecidablePred ShiftsLayer := fun _ => inferInstanceAs (Decidable (_ ∨ _))

instance : DecidablePred ForcesBase := fun _ => inferInstanceAs (Decidable (_ ∨ _))

/-- The call of `update_layer` that the third pass makes for a slot. -/
def specialEvent (definition : LogicalKeycode → HidKeycode) (key : KeyState) :
    Option (HidKeycode × Bool) :=
  if key.pKey ≠ noKey ∧ NoRemap (definition key.pKey) ∧ key.state ≠ key.prevState then
    some (definition key.pKey, key.state)
  else none

/-- The presses and releases of special keys in a run, those of one update in the order of the
    slots. -/
def specialEvents (hw : KeystateHardware) : Keystate → List KeyStep → List (HidKeycode × Bool)
  | _, [] => []
  | ks, .update scan :: steps =>
    (recordedSlots hw ks scan).filterMap (specialEvent scan.definition) ++
      specialEvents hw (keystateUpdate hw ks scan).1 steps
  | ks, .hide lKey :: steps => specialEvents hw (keystateHideKey hw ks lKey) steps

/-- Whether the last event of a key with `Q` is a press; `last` is the answer before the events. -/
def lastEvent (Q : HidKeycode → Prop) [DecidablePred Q] (last : Option Bool)
    (events : List (HidKeycode × Bool)) : Option Bool :=
  events.foldl (fun last event => if Q event.1 then some event.2 else last) last

/-- `update_layer` for one event. -/
def layerEvent (layer : Layer) (event : HidKeycode × Bool) : Layer :=
  updateLayer layer event.1 event.2

theorem foldl_decodeLayer (d : LogicalKeycode → HidKeycode) :
    ∀ (slots : List KeyState) (layer : Layer), slots.foldl (decodeLayer d) layer =
      (slots.filterMap (specialEvent d)).foldl layerEvent layer
  | [], _ => rfl
  | key :: slots, layer => by
    have hstep : decodeLayer d layer key =
        ((specialEvent d key).toList).foldl layerEvent layer := by
      unfold decodeLayer specialEvent
      split_ifs with hno hs hs' hs' <;> first | rfl | tauto
    rw [List.foldl_cons, foldl_decodeLayer d slots, hstep, List.filterMap_cons]
    cases specialEvent d key <;> rfl

/-- The layer after a run is what its special keys made of it. -/
theorem runKeys_layer (hw : KeystateHardware) : ∀ (steps : List KeyStep) (ks : Keystate),
    (runKeys hw ks steps).1.layer = (specialEvents hw ks steps).foldl layerEvent ks.layer
  | [], _ => rfl
  | .update scan :: steps, ks => by
    rw [specialEvents, List.foldl_append, ← foldl_decodeLayer]
    exact runKeys_layer hw steps _
  | .hide lKey :: steps, ks => runKeys_layer hw steps _

/-- A press of a shift key leaves the base layer, the release of one goes back to it. -/
theorem updateLayer_id {layer : Layer} (hlock : layer.lock = false) {c : HidKeycode} {b : Bool}
    (hc : (c, b) ≠ (layerLock, true)) :
    (updateLayer layer c b).lock = false ∧
      ((updateLayer layer c b).id ≠ 0 ↔ if ShiftsLayer c then b = true else layer.id ≠ 0) := by
  unfold updateLayer
  by_cases hl : c = layerLock
  · subst hl
    have hb : b = false := by
      cases b
      · rfl
      · exact absurd rfl hc
    subst hb
    exact ⟨hlock, Iff.rfl⟩
  rw [if_neg hl]
  by_cases hk : c = keypadShift
  · subst hk
    cases b <;> simp [hlock, ShiftsLayer]
  rw [if_neg hk]
  by_cases hf : c = functionShift
  · subst hf
    cases b <;> simp [hlock, ShiftsLayer]
  have hno : ¬ ShiftsLayer c := not_or.mpr ⟨hk, hf⟩
  rw [if_neg hf, if_neg hno]
  split_ifs
  · exact ⟨hlock, Iff.rfl⟩
  · exact ⟨hlock, Iff.rfl⟩

/-- The base layer is forced by the press of a key, and its release ends that. -/
theorem updateLayer_base (layer : Layer) (c : HidKeycode) (b : Bool) :
    (updateLayer layer c b).base = if ForcesBase c then b else layer.base := by
  unfold updateLayer ForcesBase
  split_ifs with h₁ h₂ h₃ h₄ h₅ h₆ h₇ h₈ <;> simp_all +decide

theorem foldl_layerEvent_id : ∀ (events : List (HidKeycode × Bool)) {layer : Layer}
    {last : Option Bool}, layer.lock = false → (layerLock, true) ∉ events →
    (layer.id ≠ 0 ↔ last = some true) →
    (events.foldl layerEvent layer).lock = false ∧
      ((events.foldl layerEvent layer).id ≠ 0 ↔ lastEvent ShiftsLayer last events = some true)
  | [], _, _, hlock, _, h => ⟨hlock, h⟩
  | (c, b) :: events, layer, last, hlock, hnot, h => by
    obtain ⟨hne, hnot⟩ := not_or.mp (List.mem_cons.not.mp hnot)
    obtain ⟨hlock', hid⟩ := updateLayer_id hlock (Ne.symm hne)
    refine foldl_layerEvent_id events hlock' hnot (hid.trans ?_)
    show _ ↔ (if ShiftsLayer c then some b else last) = some true
    split_ifs
    · exact (Option.some_inj).symm
    · exact h

theorem foldl_layerEvent_base : ∀ (events : List (HidKeycode × Bool)) {layer : Layer}
    {last : Option Bool}, (layer.base = true ↔ last = some true) →
    ((events.foldl layerEvent layer).base = true ↔ lastEvent ForcesBase last events = some true)
  | [], _, _, h => h
  | (c, b) :: events, layer, last, h => by
    refine foldl_layerEvent_base events ?_
    show (updateLayer layer c b).base = true ↔ (if ForcesBase c then some b else last) = some true
    rw [updateLayer_base]
    split_ifs
    · exact (Option.some_inj).symm
    · exact h

/-- **The last event decides.**  In every run in which the special keys keep their codes, the base
    layer is forced exactly when the last event of a key that forces it is a press; and as long as the
    lock key is not pressed, the active layer is that of a held shift key exactly when the last event of
    a shift key is a press, and is the base layer otherwise. -/
theorem last_event_decides_layer (hw : KeystateHardware)
    (definition : LogicalKeycode → HidKeycode) (steps : List KeyStep)
    (hspecials : ∀ scan, KeyStep.update scan ∈ steps → SameSpecials hw definition scan.definition) :
    let ks := (runKeys hw keystateInit steps).1
    let events := specialEvents hw keystateInit steps
    ((layerLock, true) ∉ events →
      ((∃ p ∈ heldKeys ks.keyStates, ShiftOf ks.layer.id (definition p)) ↔
        lastEvent ShiftsLayer none events = some true) ∧
      (ks.layer.id = 0 ↔ lastEvent ShiftsLayer none events ≠ some true)) ∧
    (ks.layer.base = true ↔ lastEvent ForcesBase none events = some true) ∧
    (ks.layer.base = true → ∃ p ∈ heldKeys ks.keyStates, ForcesBase (definition p)) := by
  intro ks events
  obtain ⟨htable, hbits⟩ := keystateInit_ok hw
  have hinit : LayerOk definition keystateInit :=
    ⟨fun _ hid => absurd rfl hid, fun hl => Bool.noConfusion hl, fun hb => Bool.noConfusion hb⟩
  have hok : LayerOk definition ks := hinit.run steps htable hbits hspecials
  have hlayer : ks.layer = events.foldl layerEvent keystateInit.layer := runKeys_layer hw steps _
  have hbase : ks.layer.base = true ↔ lastEvent ForcesBase none events = some true := by
    rw [hlayer]
    exact foldl_layerEvent_base events ⟨fun h => Bool.noConfusion h, fun h => (nomatch h)⟩
  refine ⟨fun hlocked => ?_, hbase, hok.base⟩
  obtain ⟨hlock, hid⟩ := foldl_layerEvent_id events
    (rfl : keystateInit.layer.lock = false) hlocked
    (iff_of_false (fun h => h rfl) (nofun : (none : Option Bool) ≠ some true))
  rw [← hlayer] at hlock hid
  refine ⟨Iff.trans ⟨?_, hok.shift hlock⟩ hid, ?_⟩
  · rintro ⟨p, -, ⟨-, hone⟩ | ⟨-, htwo⟩⟩
    · rw [hone]
      decide
    · rw [htwo]
      decide
  · exact (not_iff_comm.mp hid).symm

/-- On the K80CS the left and then the right keypad shift are pressed, and the left one is released:
    the last event is a release. -/
theorem last_event_decides_layer_k80cs :
    let steps := List.replicate 3 (k80csScan [2]) ++ List.replicate 3 (k80csScan [2, 3]) ++
      List.replicate 3 (k80csScan [3])
    specialEvents k80csKeystate keystateInit steps =
      [(keypadShift, true), (keypadShift, true), (keypadShift, false)] ∧
    (runKeys k80csKeystate keystateInit steps).1.layer.id = 0 := by
  intro steps
  have hevents : specialEvents k80csKeystate keystateInit steps =
      [(keypadShift, true), (keypadShift, true), (keypadShift, false)] := by decide +kernel
  refine ⟨hevents, ?_⟩
  have h := last_event_decides_layer k80csKeystate
    (fun l : LogicalKeycode => k80csLayout.logicalToHidMapDefault l) steps (by
      simp only [steps, k80csScan, List.mem_append, List.mem_replicate, KeyStep.update.injEq]
      rintro scan ((⟨-, rfl⟩ | ⟨-, rfl⟩) | ⟨-, rfl⟩) <;> exact fun _ _ _ => rfl)
  simp only [hevents] at h
  exact ((h.1 (by decide)).2).mpr (by decide)

/-- A scan of the K80CS with a mapping that makes key 4 a macro shift. -/
def macroShiftScan (keys : List LogicalKeycode) : Scan :=
  ⟨3, debounceLen_pos, debounceLen_le, fun l => if l = 4 then macroShift else k80csLayout.logicalToHidMapDefault l,
    pressing k80csKeystate keys⟩

/-- A held shift key loses its layer when another one is released, and the base layer is no longer
    forced when one of two keys that force it is released. -/
theorem held_shift_loses_layer :
    (¬ ∀ steps : List KeyStep,
      (layerLock, true) ∉ specialEvents k80csKeystate keystateInit steps →
      (∃ p ∈ heldKeys (runKeys k80csKeystate keystateInit steps).1.keyStates,
        ShiftsLayer (k80csLayout.logicalToHidMapDefault p)) →
      ∃ p ∈ heldKeys (runKeys k80csKeystate keystateInit steps).1.keyStates,
        ShiftOf (runKeys k80csKeystate keystateInit steps).1.layer.id
          (k80csLayout.logicalToHidMapDefault p)) ∧
    ¬ ∀ steps : List KeyStep,
      (∃ p ∈ heldKeys (runKeys k80csKeystate keystateInit steps).1.keyStates,
        ForcesBase ((macroShiftScan []).definition p)) →
      (runKeys k80csKeystate keystateInit steps).1.layer.base = true := by
  constructor
  -- the left and then the right keypad shift is pressed, and the left one released
  · intro hclaim
    let steps := List.replicate 3 (k80csScan [2]) ++ List.replicate 3 (k80csScan [2, 3]) ++
      List.replicate 3 (k80csScan [3])
    have hheld : 3 ∈ heldKeys (runKeys k80csKeystate keystateInit steps).1.keyStates := by
      decide +kernel
    obtain ⟨p, -, hp⟩ := hclaim steps (by decide +kernel) ⟨3, hheld, by decide⟩
    have hid : (runKeys k80csKeystate keystateInit steps).1.layer.id = 0 := by decide +kernel
    rw [hid] at hp
    rcases hp with ⟨-, h⟩ | ⟨-, h⟩
    · exact absurd h (by decide)
    · exact absurd h (by decide)
  -- the PROGRAM key is held while the macro shift is pressed and released
  · intro hclaim
    let steps := List.replicate 3 (KeyStep.update (macroShiftScan [0])) ++
      List.replicate 3 (KeyStep.update (macroShiftScan [0, 4])) ++
      List.replicate 3 (KeyStep.update (macroShiftScan [0]))
    have hheld : 0 ∈ heldKeys (runKeys k80csKeystate keystateInit steps).1.keyStates := by
      decide +kernel
    have hbase : (runKeys k80csKeystate keystateInit steps).1.layer.base = false := by
      decide +kernel
    exact absurd (hbase.symm.trans (hclaim steps ⟨0, hheld, by decide⟩)) (by decide)

end KeyboardFirmware
