/-
  The change events over whole runs, and the count they keep.

  For one physical key the events are a walk between two situations, up and down with some logical
  key (`Alternates`, `stillDown`).  An update gives every slot at most two events, which lead from
  what the slot was before it to what it is after it (`slotEvents_spec`); the slots are of different
  keys, so the walks of the keys can be told apart (`filter_events`).  `key_press_count` is the
  number of the keys that are down, in the middle of an update as much as after it
  (`countEvents_spec`).
-/
import KeyboardFirmware.Keystate.Table
import Mathlib.Tactic.SplitIfs

namespace KeyboardFirmware

variable {hw : KeystateHardware}

/-- The events of one key alternate, starting with a press if it is up (`none`) and with a release of
    `l` if it is down with the logical key `l`; a release is always of the key that was pressed. -/
def Alternates : Option LogicalKeycode → List KeyEvent → Prop
  | _, [] => True
  | none, event :: events => event.press = true ∧ Alternates (some event.lKey) events
  | some l, event :: events => event.press = false ∧ event.lKey = l ∧ Alternates none events

/-- What the events of one key lead to. -/
def stillDown (down : Option LogicalKeycode) (events : List KeyEvent) : Option LogicalKeycode :=
  events.foldl (fun _ event => if event.press then some event.lKey else none) down

theorem alternates_append : ∀ {xs ys : List KeyEvent} {down : Option LogicalKeycode},
    Alternates down (xs ++ ys) ↔ Alternates down xs ∧ Alternates (stillDown down xs) ys
  | [], _, _ => by simp [Alternates, stillDown]
  | event :: xs, ys, none => by
    show event.press = true ∧ Alternates _ (xs ++ ys) ↔ (event.press = true ∧ Alternates _ xs) ∧
      Alternates (stillDown (if event.press then some event.lKey else none) xs) ys
    rw [alternates_append, and_assoc]
    refine and_congr_right fun h => ?_
    rw [if_pos h]
  | event :: xs, ys, some l => by
    show event.press = false ∧ event.lKey = l ∧ Alternates none (xs ++ ys) ↔
      (event.press = false ∧ event.lKey = l ∧ Alternates none xs) ∧
        Alternates (stillDown (if event.press then some event.lKey else none) xs) ys
    rw [alternates_append, and_assoc, and_assoc]
    refine and_congr_right fun h => ?_
    rw [if_neg (by rw [h]; exact Bool.false_ne_true)]

theorem stillDown_append (down : Option LogicalKeycode) (xs ys : List KeyEvent) :
    stillDown down (xs ++ ys) = stillDown (stillDown down xs) ys := List.foldl_append

/-- No event takes the count below zero, nor over the top of its byte. -/
def NeverWraps : Byte → List KeyEvent → Prop
  | _, [] => True
  | count, event :: events =>
    (if event.press then count ≠ 255 else count ≠ 0) ∧ NeverWraps (countEvent count event) events

theorem neverWraps_append : ∀ {xs ys : List KeyEvent} {count : Byte},
    NeverWraps count (xs ++ ys) ↔ NeverWraps count xs ∧ NeverWraps (xs.foldl countEvent count) ys
  | [], _, _ => by simp [NeverWraps]
  | event :: xs, ys, count => by
    show _ ∧ NeverWraps _ (xs ++ ys) ↔ (_ ∧ NeverWraps _ xs) ∧ _
    rw [neverWraps_append, and_assoc]
    rfl

/-! ## The events of one slot -/

/-- The logical key of a slot depends on the layer id only. -/
theorem logicalKey_congr (hw : KeystateHardware) {a b : Layer} (h : layerId a = layerId b)
    (p : LogicalKeycode) :
    logicalKey hw a p = logicalKey hw b p := by
  have hoffset : (if a.base then 0 else a.id.val) = (if b.base then 0 else b.id.val) := by
    have ha := a.id.isLt
    have hb := b.id.isLt
    unfold layerId at h
    split at h <;> split at h <;> simp only [*, if_true, if_false, Bool.false_eq_true] <;> omega
  unfold logicalKey
  rw [hoffset]

section Slot

variable {definition : LogicalKeycode → HidKeycode} {prevLayer layer : Layer} {key : KeyState}
  {old debounced : LogicalKeycode → Bool}

/-- The events of a slot lead from its previous state in the previous layer to its state in the new
    layer. -/
theorem slotEvents_spec (hw : KeystateHardware) (prevLayer layer : Layer) (hkey : MidSlot old debounced key) (hused : key.pKey ≠ noKey)
    (hnotify : isHidKeyToNotifyAbout (definition key.pKey) = true) :
    let events := slotEvents hw definition prevLayer layer
      (decide (layerId layer ≠ layerId prevLayer)) key
    let before := if key.prevState then some (logicalKey hw prevLayer key.pKey) else none
    Alternates before events ∧
      stillDown before events = if key.state then some (logicalKey hw layer key.pKey) else none := by
  have hlive : key.prevState = true ∨ key.state = true := by
    rcases hkey with rfl | ⟨-, hprev, -⟩ | ⟨-, -, hstate, -⟩
    · exact absurd rfl hused
    · exact .inl hprev
    · exact .inr hstate
  simp only [slotEvents, if_neg hused, hnotify, if_true]
  by_cases hchange : layerId layer = layerId prevLayer
  -- the layer stays, and with it the logical key
  · have hlogical := logicalKey_congr hw hchange key.pKey
    rcases hprev : key.prevState <;> rcases hstate : key.state <;>
      simp [hchange, hprev, hstate, hlogical, notifyAboutKeyChange, notifyKeyPressed,
        notifyKeyReleased, Alternates, stillDown] at hlive ⊢
  · rcases hprev : key.prevState <;> rcases hstate : key.state <;>
      simp [hchange, hprev, hstate, notifyAboutKeyChange, notifyKeyPressed, notifyKeyReleased,
        Alternates, stillDown] at hlive ⊢

theorem slotEvents_of_not_notify (hnotify : key.pKey = noKey ∨
    isHidKeyToNotifyAbout (definition key.pKey) = false) (layerChange : Bool) :
    slotEvents hw definition prevLayer layer layerChange key = [] := by
  unfold slotEvents
  rcases hnotify with hno | hnot
  · rw [if_pos hno]
  · rw [hnot]
    split
    · rfl
    · split <;> rfl

theorem notifyAboutKeyChange_pKey {layerChange : Bool} {event : KeyEvent}
    (h : event ∈ notifyAboutKeyChange hw prevLayer layer layerChange key) :
    event.pKey = key.pKey := by
  unfold notifyAboutKeyChange at h
  split_ifs at h <;> simp only [List.mem_cons, List.not_mem_nil, or_false] at h
  -- a layer change while the key stays down
  · rcases h with rfl | rfl <;> rfl
  all_goals
    subst h
    rfl

theorem slotEvents_pKey {layerChange : Bool} {event : KeyEvent}
    (h : event ∈ slotEvents hw definition prevLayer layer layerChange key) :
    event.pKey = key.pKey := by
  unfold slotEvents at h
  split_ifs at h
  · exact (nomatch h)
  · exact (nomatch h)
  · exact notifyAboutKeyChange_pKey h
  · exact (nomatch h)

end Slot

/-! ## The events of all slots -/

/-- The events of key `p` are those of its slot, if it has one. -/
theorem filter_events {f : KeyState → List KeyEvent}
    (hkey : ∀ key, ∀ event ∈ f key, event.pKey = key.pKey)
    (hfree : ∀ key, key.pKey = noKey → f key = []) (p : LogicalKeycode) :
    ∀ {slots : List KeyState}, (heldKeys slots).Nodup →
      (p ∉ heldKeys slots → (slots.flatMap f).filter (fun event => event.pKey = p) = []) ∧
      ∀ key ∈ slots, key.pKey = p → p ≠ noKey →
        (slots.flatMap f).filter (fun event => event.pKey = p) = f key
  | [], _ => ⟨fun _ => rfl, fun _ h => (nomatch h)⟩
  | k :: slots, hnodup => by
    have hnone : k.pKey ≠ p → (f k).filter (fun event => event.pKey = p) = [] := fun hkp =>
      List.filter_eq_nil_iff.mpr fun event he => by simpa [hkey k event he] using hkp
    rw [List.flatMap_cons, List.filter_append]
    by_cases hk : k.pKey = noKey
    · rw [heldKeys_cons_free hk] at hnodup ⊢
      obtain ⟨hout, hin⟩ := filter_events hkey hfree p hnodup
      rw [hfree k hk]
      refine ⟨hout, fun key hmem hp hne => ?_⟩
      rcases List.mem_cons.mp hmem with rfl | hmem
      · exact absurd (hp.symm.trans hk) hne
      · exact hin key hmem hp hne
    · rw [heldKeys_cons_used hk] at hnodup ⊢
      obtain ⟨hnot, hnodup⟩ := List.nodup_cons.mp hnodup
      obtain ⟨hout, hin⟩ := filter_events hkey hfree p hnodup
      refine ⟨fun hp => ?_, fun key hmem hp hne => ?_⟩
      · rw [List.mem_cons, not_or] at hp
        rw [hnone (Ne.symm hp.1), hout hp.2, List.append_nil]
      · rcases List.mem_cons.mp hmem with rfl | hmem
        -- no other slot has the key
        · rw [hout (hp ▸ hnot), List.append_nil]
          exact List.filter_eq_self.mpr fun event he => by simpa [hkey key event he] using hp
        · have hkp : k.pKey ≠ p := fun hkp =>
            hnot (hkp ▸ hp ▸ mem_heldKeys.mpr ⟨hp ▸ hne, key, hmem, rfl⟩)
          rw [hnone hkp, hin key hmem hp hne, List.nil_append]

/-- The number of keys that are down, `b` other keys apart, along the events of one key. -/
theorem count_alternates {b : Nat} (hb : b < 255) :
    ∀ (events : List KeyEvent) (down : Option LogicalKeycode) (count : Byte),
      Alternates down events → count.val = b + down.isSome.toNat →
      NeverWraps count events ∧
        (events.foldl countEvent count).val = b + (stillDown down events).isSome.toNat
  | [], _, _, _, hcount => ⟨trivial, hcount⟩
  | event :: events, none, count, h, hcount => by
    obtain ⟨hpress, hrest⟩ := h
    have hcount : count.val = b := hcount
    have hnext : (countEvent count event).val = b + 1 := by
      rw [countEvent, if_pos hpress, Fin.val_add, hcount]
      exact Nat.mod_eq_of_lt (by omega)
    obtain ⟨hwraps, hfold⟩ := count_alternates hb events (some event.lKey) _ hrest hnext
    refine ⟨⟨?_, hwraps⟩, ?_⟩
    · rw [if_pos hpress]
      rintro rfl
      exact absurd hcount.symm (Nat.ne_of_lt hb)
    · show _ = b + (stillDown (if event.press then some event.lKey else none) events).isSome.toNat
      rw [if_pos hpress]
      exact hfold
  | event :: events, some l, count, h, hcount => by
    obtain ⟨hpress, -, hrest⟩ := h
    have hcount : count.val = b + 1 := hcount
    have hnext : (countEvent count event).val = b := by
      rw [countEvent, hpress, if_neg Bool.false_ne_true, Fin.val_sub, hcount]
      show (256 - 1 + (b + 1)) % 256 = b
      omega
    obtain ⟨hwraps, hfold⟩ := count_alternates hb events none _ hrest hnext
    refine ⟨⟨?_, hwraps⟩, ?_⟩
    · rw [hpress, if_neg Bool.false_ne_true]
      rintro rfl
      exact absurd hcount (Nat.succ_ne_zero b).symm
    · show _ = b + (stillDown (if event.press then some event.lKey else none) events).isSome.toNat
      rw [hpress, if_neg Bool.false_ne_true]
      exact hfold

/-- The slot is of a key that is reported. -/
def reported (definition : LogicalKeycode → HidKeycode) (key : KeyState) : Bool :=
  key.pKey ≠ noKey && isHidKeyToNotifyAbout (definition key.pKey)

/-- The last pass over the slots: the count goes from the reported keys that were down to those that
    are, and never wraps on the way. -/
theorem countEvents_spec (hw : KeystateHardware) (definition : LogicalKeycode → HidKeycode)
    (prevLayer layer : Layer) {old debounced : LogicalKeycode → Bool} :
    ∀ {slots : List KeyState}, (∀ key ∈ slots, MidSlot old debounced key) →
      ∀ (count : Byte) (done : Nat), done + slots.length ≤ 255 →
      count.val = done + slots.countP (fun key => reported definition key && key.prevState) →
      let events := slots.flatMap (slotEvents hw definition prevLayer layer
        (decide (layerId layer ≠ layerId prevLayer)))
      NeverWraps count events ∧ (events.foldl countEvent count).val =
        done + slots.countP (fun key => reported definition key && key.state)
  | [], _, _, _, _, hcount => ⟨trivial, hcount⟩
  | key :: slots, hmid, count, done, hlen, hcount => by
    have hrest : ∀ k ∈ slots, MidSlot old debounced k := fun k hk =>
      hmid k (List.mem_cons_of_mem _ hk)
    have hbound := List.countP_le_length
      (p := fun key => reported definition key && key.prevState) (l := slots)
    rw [List.length_cons] at hlen
    rw [List.countP_cons] at hcount ⊢
    rw [List.flatMap_cons]
    simp only [neverWraps_append, List.foldl_append]
    rcases hreported : reported definition key
    -- a slot without events
    · rw [hreported] at hcount
      have hnot : key.pKey = noKey ∨ isHidKeyToNotifyAbout (definition key.pKey) = false := by
        by_cases hno : key.pKey = noKey
        · exact .inl hno
        · exact .inr (by simpa [reported, hno] using hreported)
      rw [slotEvents_of_not_notify hnot]
      obtain ⟨hwraps, hfold⟩ := countEvents_spec hw definition prevLayer layer hrest count done (by omega) hcount
      exact ⟨⟨trivial, hwraps⟩, hfold⟩
    · rw [hreported] at hcount
      simp only [Bool.true_and] at hcount ⊢
      obtain ⟨hne, hnotify⟩ : key.pKey ≠ noKey ∧
          isHidKeyToNotifyAbout (definition key.pKey) = true := by
        simpa [reported] using hreported
      obtain ⟨halternates, hdown⟩ := slotEvents_spec hw prevLayer layer (hmid key List.mem_cons_self) hne hnotify
      obtain ⟨hwraps, hfold⟩ := count_alternates
        (b := done + slots.countP fun key => reported definition key && key.prevState)
        (by omega) _ _ count halternates (by
          rw [hcount]
          rcases key.prevState <;> rfl)
      rw [hdown] at hfold
      obtain ⟨hwraps', hfold'⟩ := countEvents_spec hw definition prevLayer layer hrest _ (done + key.state.toNat)
        (by have := Bool.toNat_le key.state; omega) (by
          rw [hfold]
          rcases key.state <;> simp [Nat.add_right_comm])
      refine ⟨⟨hwraps, hwraps'⟩, hfold'.trans ?_⟩
      rcases key.state <;> simp [Nat.add_assoc, Nat.add_comm]

/-! ## One update -/

/-- The slots of the middle of an update whose previous state is pressed are the old ones. -/
theorem countP_prevState (definition : LogicalKeycode → HidKeycode)
    {old debounced : LogicalKeycode → Bool} :
    ∀ {slots : List KeyState}, (∀ key ∈ slots, MidSlot old debounced key) →
      slots.countP (fun key => reported definition key && key.prevState) =
        (heldKeys slots).countP (fun p => isHidKeyToNotifyAbout (definition p) && old p) ∧
      slots.countP (fun key => reported definition key && key.state) =
        (heldKeys slots).countP (fun p => isHidKeyToNotifyAbout (definition p) && debounced p)
  | [], _ => ⟨rfl, rfl⟩
  | key :: slots, h => by
    obtain ⟨hprev, hstate⟩ := countP_prevState definition fun k hk =>
      h k (List.mem_cons_of_mem _ hk)
    simp only [List.countP_cons, hprev, hstate]
    rcases h key List.mem_cons_self with rfl | ⟨hne, h1, h2, h3⟩ | ⟨hne, h1, h2, -, h3, h4⟩
    · simp [reported, emptyKeyState, heldKeys_cons_free]
    · simp [reported, heldKeys_cons_used hne, List.countP_cons, hne, h1, h2, h3]
    · simp [reported, heldKeys_cons_used hne, List.countP_cons, hne, h1, h2, h3, h4]

/-- The number of held keys that are reported in the base layer. -/
def reportedCount (definition : LogicalKeycode → HidKeycode) (ks : Keystate) : Nat :=
  (heldKeys ks.keyStates).countP fun p => isHidKeyToNotifyAbout (definition p)

/-- The logical key a physical key is down with, if it is held and reported. -/
def downKey (hw : KeystateHardware) (definition : LogicalKeycode → HidKeycode) (ks : Keystate)
    (p : LogicalKeycode) : Option LogicalKeycode :=
  if p ∈ heldKeys ks.keyStates ∧ isHidKeyToNotifyAbout (definition p) = true then
    some (logicalKey hw ks.layer p)
  else none

section Update

variable {ks : Keystate} {s : Scan}

/-- **Step**, for the count. -/
theorem keystateUpdate_count (hw : KeystateHardware) (h : TableOk ks)
    (hcount : ks.keyPressCount.val = reportedCount s.definition ks) :
    NeverWraps ks.keyPressCount (keystateUpdate hw ks s).2 ∧
      (keystateUpdate hw ks s).2.foldl countEvent ks.keyPressCount =
        (keystateUpdate hw ks s).1.keyPressCount ∧
      (keystateUpdate hw ks s).1.keyPressCount.val =
        reportedCount s.definition (keystateUpdate hw ks s).1 := by
  obtain ⟨hmid, hlen, taken, hpart, hperm, -⟩ := h.recorded hw s
  obtain ⟨hprev, hstate⟩ := countP_prevState s.definition hmid
  -- of the held keys and the new ones, the held ones were down before
  have hbefore : (recordedSlots hw ks s).countP (fun key => reported s.definition key && key.prevState)
      = reportedCount s.definition ks := by
    rw [hprev, hperm.countP_eq, List.countP_append, reportedCount]
    have hold : (heldKeys ks.keyStates).countP
        (fun p => isHidKeyToNotifyAbout (s.definition p) && ks.debouncedBitfield p) =
        (heldKeys ks.keyStates).countP fun p => isHidKeyToNotifyAbout (s.definition p) :=
      List.countP_congr fun p hp => by rw [heldKeys_bit h hp, Bool.and_true]
    have hnew : taken.countP
        (fun p => isHidKeyToNotifyAbout (s.definition p) && ks.debouncedBitfield p) = 0 :=
      List.countP_eq_zero.mpr fun p hp => by
        have hon := (List.mem_filter.mp (hpart.subset hp)).2
        rw [(debouncedOn_spec hon).1, Bool.and_false]
        exact Bool.false_ne_true
    rw [hold, hnew, Nat.add_zero]
  have hafter : (recordedSlots hw ks s).countP (fun key => reported s.definition key && key.state) =
      reportedCount s.definition (keystateUpdate hw ks s).1 := by
    rw [hstate, reportedCount, heldKeys_update s hw h, List.countP_filter]
  obtain ⟨hwraps, hfold⟩ := countEvents_spec hw s.definition ks.prevLayer
    (keystateUpdate hw ks s).1.layer hmid ks.keyPressCount 0
    (by rw [hlen]; decide) (by rw [hbefore, Nat.zero_add, hcount])
  rw [hafter, Nat.zero_add] at hfold
  exact ⟨hwraps, rfl, hfold⟩

/-- **Step**, for one key: its events lead from what it was down with to what it is down with. -/
theorem keystateUpdate_events (hw : KeystateHardware) (h : TableOk ks) (hlayer : ks.prevLayer = ks.layer)
    (p : LogicalKeycode) :
    let events := (keystateUpdate hw ks s).2.filter fun event => event.pKey = p
    Alternates (downKey hw s.definition ks p) events ∧
      stillDown (downKey hw s.definition ks p) events =
        downKey hw s.definition (keystateUpdate hw ks s).1 p := by
  obtain ⟨hmid, -, taken, hpart, hperm, -⟩ := h.recorded hw s
  have hnodup : (heldKeys (recordedSlots hw ks s)).Nodup :=
    hperm.nodup_iff.mpr ((heldKeys_append_nodup s h).sublist (hpart.sublist.append_left _))
  have hheld := heldKeys_update s hw h
  obtain ⟨hout, hin⟩ := filter_events
    (f := slotEvents hw s.definition ks.prevLayer (keystateUpdate hw ks s).1.layer
      (decide (layerId (keystateUpdate hw ks s).1.layer ≠ layerId ks.prevLayer)))
    (fun _ _ he => slotEvents_pKey he) (fun _ hno => slotEvents_of_not_notify (.inl hno) _) p hnodup
  have hevents : (keystateUpdate hw ks s).2 = (recordedSlots hw ks s).flatMap
      (slotEvents hw s.definition ks.prevLayer (keystateUpdate hw ks s).1.layer
        (decide (layerId (keystateUpdate hw ks s).1.layer ≠ layerId ks.prevLayer))) := rfl
  rw [hevents]
  by_cases hp : p ∈ heldKeys (recordedSlots hw ks s)
  · obtain ⟨hne, key, hkey, rfl⟩ := mem_heldKeys.mp hp
    rw [hin key hkey rfl hne]
    -- the key was held before if its previous state is pressed, and is held after if its state is
    have hbefore : key.pKey ∈ heldKeys ks.keyStates ↔ key.prevState = true := by
      rcases hmid key hkey with rfl | ⟨-, hprev, -, hold⟩ | ⟨-, hprev, -, -, -, hold⟩
      · exact absurd rfl hne
      · refine ⟨fun _ => hprev, fun _ => ?_⟩
        rcases List.mem_append.mp (hperm.mem_iff.mp hp) with hheld | htaken
        · exact hheld
        · have hon := (List.mem_filter.mp (hpart.subset htaken)).2
          rw [(debouncedOn_spec hon).1] at hold
          exact Bool.noConfusion hold
      · rw [hprev]
        refine ⟨fun hheld => ?_, fun hfalse => Bool.noConfusion hfalse⟩
        rw [heldKeys_bit h hheld] at hold
        exact Bool.noConfusion hold
    have hafter : key.pKey ∈ heldKeys (keystateUpdate hw ks s).1.keyStates ↔ key.state = true := by
      rw [hheld, List.mem_filter]
      rcases hmid key hkey with rfl | ⟨-, -, hstate, -⟩ | ⟨-, -, hstate, -, hbit, -⟩
      · exact absurd rfl hne
      · rw [hstate]
        exact ⟨fun h => h.2, fun h => ⟨hp, h⟩⟩
      · rw [hstate]
        exact ⟨fun _ => rfl, fun _ => ⟨hp, hbit⟩⟩
    simp only [downKey, hbefore, hafter]
    rcases hnotify : isHidKeyToNotifyAbout (s.definition key.pKey)
    · rw [slotEvents_of_not_notify (.inr hnotify)]
      simp only [Bool.false_eq_true, and_false, if_false]
      exact ⟨trivial, rfl⟩
    · simp only [and_true]
      rw [← hlayer]
      exact slotEvents_spec hw ks.prevLayer _ (hmid key hkey) hne hnotify
  · rw [hout hp]
    have hbefore : p ∉ heldKeys ks.keyStates := fun hheld =>
      hp (hperm.mem_iff.mpr (List.mem_append_left _ hheld))
    have hafter : p ∉ heldKeys (keystateUpdate hw ks s).1.keyStates := fun hmem => by
      rw [hheld] at hmem
      exact hp (List.mem_filter.mp hmem).1
    unfold downKey
    rw [if_neg fun h => hbefore h.1, if_neg fun h => hafter h.1]
    exact ⟨trivial, rfl⟩

end Update

/-! ## Runs -/

/-- The mapping after a step: an update reads the one in force, `definition` was in force before. -/
def KeyStep.definition (definition : LogicalKeycode → HidKeycode) :
    KeyStep → LogicalKeycode → HidKeycode
  | .update scan => scan.definition
  | .hide _ => definition

/-- The mapping after a run. -/
def lastDefinition (definition : LogicalKeycode → HidKeycode) (steps : List KeyStep) :
    LogicalKeycode → HidKeycode := steps.foldl KeyStep.definition definition

/-- The mapping does not change while keys are held. -/
def SteadyMapping (hw : KeystateHardware) (ks : Keystate)
    (definition : LogicalKeycode → HidKeycode) : List KeyStep → Prop
  | [] => True
  | step :: steps =>
    (heldKeys ks.keyStates ≠ [] → step.definition definition = definition) ∧
      SteadyMapping hw (step.apply hw ks).1 (step.definition definition) steps

/-- The counter and the events sent so far fit the table. -/
structure EventsOk (hw : KeystateHardware) (definition : LogicalKeycode → HidKeycode)
    (ks : Keystate) (events : List KeyEvent) : Prop where
  table : TableOk ks
  layer : ks.prevLayer = ks.layer
  count : ks.keyPressCount.val = reportedCount definition ks
  counted : events.foldl countEvent 0 = ks.keyPressCount
  wraps : NeverWraps 0 events
  alternates : ∀ p, Alternates none (events.filter fun event => event.pKey = p)
  down : ∀ p, stillDown none (events.filter fun event => event.pKey = p) = downKey hw definition ks p

/-- While no key is held the mapping does not matter. -/
theorem EventsOk.congr {definition definition' : LogicalKeycode → HidKeycode} {ks : Keystate}
    {events : List KeyEvent} (h : EventsOk hw definition ks events)
    (hsteady : heldKeys ks.keyStates ≠ [] → definition' = definition) :
    EventsOk hw definition' ks events := by
  by_cases hheld : heldKeys ks.keyStates = []
  · refine { h with count := ?_, down := fun p => ?_ }
    · rw [h.count, reportedCount, reportedCount, hheld]
      rfl
    · rw [h.down p, downKey, downKey, hheld]
      simp
  · rw [hsteady hheld]
    exact h

theorem EventsOk.apply {definition : LogicalKeycode → HidKeycode} {ks : Keystate}
    {events : List KeyEvent} (h : EventsOk hw definition ks events) (step : KeyStep)
    (hsteady : heldKeys ks.keyStates ≠ [] → step.definition definition = definition) :
    EventsOk hw (step.definition definition) (step.apply hw ks).1
      (events ++ (step.apply hw ks).2) := by
  have h := h.congr hsteady
  cases step with
  | update scan =>
    obtain ⟨hwraps, hfold, hcount⟩ := keystateUpdate_count hw h.table h.count
    have hkey := keystateUpdate_events (s := scan) hw h.table h.layer
    exact
      { table := h.table.update scan
        layer := rfl
        count := hcount
        counted := by rw [List.foldl_append, h.counted]; exact hfold
        wraps := neverWraps_append.mpr ⟨h.wraps, by rw [h.counted]; exact hwraps⟩
        alternates := fun p => by
          rw [List.filter_append, alternates_append, h.down p]
          exact ⟨h.alternates p, (hkey p).1⟩
        down := fun p => by
          rw [List.filter_append, stillDown_append, h.down p]
          exact (hkey p).2 }
  | hide lKey =>
    have hheld := heldKeys_hide hw ks lKey
    show EventsOk hw definition (keystateHideKey hw ks lKey) (events ++ [])
    rw [List.append_nil]
    exact
      { table := h.table.hide lKey
        layer := h.layer
        count := by rw [reportedCount, hheld]; exact h.count
        counted := h.counted
        wraps := h.wraps
        alternates := h.alternates
        down := fun p => by rw [downKey, hheld]; exact h.down p }

/-- **Run**: the counter and the events go on to fit the table. -/
theorem EventsOk.run : ∀ (steps : List KeyStep) {definition : LogicalKeycode → HidKeycode}
    {ks : Keystate} {events : List KeyEvent}, EventsOk hw definition ks events →
    SteadyMapping hw ks definition steps →
    EventsOk hw (lastDefinition definition steps) (runKeys hw ks steps).1
      (events ++ (runKeys hw ks steps).2)
  | [], _, _, events, h, _ => by
    rw [runKeys, List.append_nil]
    exact h
  | step :: steps, _, _, _, h, hsteady => by
    rw [runKeys, ← List.append_assoc]
    exact EventsOk.run steps (h.apply step hsteady.1) hsteady.2

theorem eventsOk_init (hw : KeystateHardware) (definition : LogicalKeycode → HidKeycode) :
    EventsOk hw definition keystateInit [] where
  table := (keystateInit_ok hw).1
  layer := rfl
  count := rfl
  counted := rfl
  wraps := trivial
  alternates := fun _ => trivial
  down := fun _ => (if_neg fun h => (nomatch h.1)).symm

/-- **Count and events.**  In every run in which the mapping does not change while keys are held,
    `key_press_count` is the number of held keys that are reported in the base layer, it never
    wraps, and the events of each key alternate, each release being of the logical key that was
    pressed. -/
theorem count_and_events_balance (hw : KeystateHardware)
    (definition : LogicalKeycode → HidKeycode) (steps : List KeyStep)
    (hsteady : SteadyMapping hw keystateInit definition steps) :
    (runKeys hw keystateInit steps).1.keyPressCount.val =
        reportedCount (lastDefinition definition steps) (runKeys hw keystateInit steps).1 ∧
      NeverWraps keystateInit.keyPressCount (runKeys hw keystateInit steps).2 ∧
      ∀ p, Alternates none
        ((runKeys hw keystateInit steps).2.filter fun event => event.pKey = p) := by
  have h := (eventsOk_init hw definition).run steps hsteady
  rw [List.nil_append] at h
  exact ⟨h.count, h.wraps, h.alternates⟩

/-- On the K80CS, A is typed while the keypad shift goes down: its press in the base layer is
    followed by a release there and a press in the keypad layer. -/
theorem count_and_events_balance_k80cs :
    let steps := List.replicate 3 (k80csScan [4]) ++ List.replicate 3 (k80csScan [4, 2])
    (runKeys k80csKeystate keystateInit steps).2 = [⟨4, 4, true⟩, ⟨4, 4, false⟩, ⟨4, 84, true⟩] ∧
      (runKeys k80csKeystate keystateInit steps).1.keyPressCount.val = reportedCount
        (fun l => k80csLayout.logicalToHidMapDefault l) (runKeys k80csKeystate keystateInit steps).1 :=
  ⟨by decide +kernel, (count_and_events_balance k80csKeystate
    (fun l => k80csLayout.logicalToHidMapDefault l) _ (by simp [SteadyMapping, KeyStep.definition,
      k80csScan])).1⟩

end KeyboardFirmware
