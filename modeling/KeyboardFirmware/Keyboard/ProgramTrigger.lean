/-
  The triggers that the normal state looks up, and the keys that the start of a program hides.

  The array with the keys of the trigger is filled up with `NO_KEY`, and as many of its keys are hidden
  as are pressed.  When the trigger has fewer keys than are pressed, the filler is among them, and
  hiding it hides the physical key that it is modulo the size of a layer (`program_hides_iff`).
-/
import KeyboardFirmware.Keyboard.Trigger
import KeyboardFirmware.Macro.ExtraReport

namespace KeyboardFirmware

open Lib

/-- What the lookup reads of the stored configuration and of the macros. -/
structure TriggerStore where
  macros : Hardware
  index : MacroIndex
  macrosEnabled : Bool
  programsEnabled : Bool
  /-- `macros_start_playback` succeeds. -/
  startsPlayback : Fin 65536 → Bool

/-- `select_main_trigger_key`: the first key that is no modifier, or else the first key. -/
def selectMainTriggerKey (definition : LogicalKeycode → HidKeycode) (key : MacroIdxKey) :
    LogicalKeycode :=
  ((key.keys.takeWhile fun k => k ≠ noKey).find? fun k => definition k < leftControl).getD key.head

/-- `keystate_is_key_hidden`. -/
def keystateIsKeyHidden (hw : KeystateHardware) (ks : Keystate) (lKey : LogicalKeycode) : Bool :=
  match ks.keyStates.find? fun key => key.pKey.val = lKey.val % hw.keypadLayerSize with
  | some key => key.hidden
  | none => true

/-- The key of the second lookup: the main key and, in the place of the others, `NO_KEY`. -/
def singleKeyTrigger (definition : LogicalKeycode → HidKeycode) (key : MacroIdxKey) (count : Nat) :
    MacroIdxKey where
  keys := (List.range macroMaxKeys).map fun j =>
    if j = 0 then selectMainTriggerKey definition key
    else if j < count then noKey
    else key.keys.getD j noKey
  keys_length := by simp

/-- The two lookups: the key as it stands in the end, whether it is of several keys, and the entry. -/
def lookupTrigger (store : TriggerStore) (definition : LogicalKeycode → HidKeycode) (key : MacroIdxKey)
    (count : Nat) : Option (MacroIdxKey × Bool × Nat) :=
  match macroIdxLookup store.macros store.index key with
  | some h => some (key, count > 1, h)
  | none =>
    if count > 1 then
      -- try also one key trigger for mergable macros
      let key := singleKeyTrigger definition key count
      (macroIdxLookup store.macros store.index key).map fun h => (key, false, h)
    else none

/-- What the lookup comes to. -/
inductive TriggerResult
  | nothing
  /-- `vm_start` with the data of the entry `h`. -/
  | program (key : MacroIdxKey) (h : Nat)
  /-- `macros_start_playback` with it. -/
  | plays (key : MacroIdxKey) (multiKeyTrigger : Bool) (h : Nat)
  deriving DecidableEq

section Trigger

variable (hw : KeyboardHardware) (store : TriggerStore) (it : Iteration) (kb : Keyboard)

/-- `macro_key` when the keys have been read: what is not written is what is on the stack. -/
def readTriggerKey : MacroIdxKey where
  keys := (List.range macroMaxKeys).map fun i => (pressedKeys hw kb).getD i (it.junk i)
  keys_length := by simp

/-- The switch over the type of the entry that was found. -/
def startTrigger (key : MacroIdxKey) (multiKeyTrigger : Bool) (h : Nat) : TriggerResult :=
  let md := macroIdxGetData store.index h
  match md.type with
  | .programEntry =>
    if !store.programsEnabled then .nothing
    else if !keystateIsKeyHidden hw.keystate kb.keystate key.head then .program key h
    else .nothing
  | .macroEntry =>
    if !store.macrosEnabled then .nothing
    else if store.startsPlayback md.data then .plays key multiKeyTrigger h
    else .nothing

/-- The last part of `handle_state_normal`, up to the start of a program or a playback. -/
def triggerResult : TriggerResult :=
  if !(store.macrosEnabled || store.programsEnabled) then .nothing
  else
    let count := kb.keystate.keyPressCount.val
    let formatted := macroIdxFormatKey (readTriggerKey hw it kb) count
    if !formatted.2 then .nothing
    else
      match lookupTrigger store kb.definition formatted.1 count with
      | none => .nothing
      | some (key, multiKeyTrigger, h) => startTrigger hw store kb key multiKeyTrigger h

/-- The keys that are hidden, and the state that is entered. -/
def triggerOutcome : TriggerOutcome :=
  match triggerResult hw store it kb with
  | .nothing => .none
  | .program key _ => .program (key.keys.take kb.keystate.keyPressCount.val)
  | .plays key multiKeyTrigger _ => .plays multiKeyTrigger (selectMainTriggerKey kb.definition key)

/-- `handle_state_normal`, with its lookup. -/
def handleStateNormalLookup : Keyboard :=
  handleStateNormal hw { it with trigger := triggerOutcome hw store it kb } kb

/-- The normal state starts a program, and the entry `h` of the index is the trigger that matched. -/
def StartsProgram (h : Nat) : Prop :=
  let count := kb.keystate.keyPressCount.val
  ¬ (count = 0 ∨ count > macroMaxKeys) ∧
    programChord hw kb (insertionsortUint8 (((List.range count).map fun i =>
      (pressedKeys hw kb).getD i (it.junk i)).map kb.definition) count) = none ∧
    ∃ key, triggerResult hw store it kb = .program key h

/-- The entry of the program that is started. -/
def TriggerResult.startedEntry : TriggerResult → Option Nat
  | .program _ h => some h
  | _ => none

instance (h : Nat) : Decidable (StartsProgram hw store it kb h) :=
  let count := kb.keystate.keyPressCount.val
  decidable_of_iff (¬ (count = 0 ∨ count > macroMaxKeys) ∧
    (programChord hw kb (insertionsortUint8 (((List.range count).map fun i =>
      (pressedKeys hw kb).getD i (it.junk i)).map kb.definition) count)).isNone = true ∧
    (triggerResult hw store it kb).startedEntry = some h) (by
      refine and_congr Iff.rfl (and_congr Option.isNone_iff_eq_none ?_)
      cases triggerResult hw store it kb <;> simp [TriggerResult.startedEntry, eq_comm])

end Trigger

/-- A physical key is one of a trigger. -/
def Belongs (hw : KeystateHardware) (trigger : MacroIdxKey) (pKey : LogicalKeycode) : Prop :=
  ∃ k ∈ trigger.keys, k ≠ noKey ∧ k.val % hw.keypadLayerSize = pKey.val

instance (hw : KeystateHardware) (trigger : MacroIdxKey) (pKey : LogicalKeycode) :
    Decidable (Belongs hw trigger pKey) :=
  inferInstanceAs (Decidable (∃ k ∈ trigger.keys, _))

/-- A slot with its key hidden, in a case. -/
def KeyState.hideIf (slot : KeyState) (hide : Bool) : KeyState :=
  { slot with hidden := slot.hidden || hide }

/-- Some of the held keys are hidden. -/
def Keystate.hideIf (ks : Keystate) (hide : LogicalKeycode → Bool) : Keystate :=
  { ks with keyStates := ks.keyStates.map fun slot => slot.hideIf (hide slot.pKey) }

/-- The held keys of the trigger are hidden, and nothing else has changed. -/
def HidesExactly (hw : KeystateHardware) (trigger : MacroIdxKey) (ks ks' : Keystate) : Prop :=
  ks' = ks.hideIf fun pKey => Belongs hw trigger pKey

/-! ## Hiding some keys -/

variable {hw : KeystateHardware} {ks : Keystate} {pKey : LogicalKeycode} {slots : List KeyState}

theorem hideIf_false (slot : KeyState) : slot.hideIf false = slot := by
  rw [KeyState.hideIf, Bool.or_false]

theorem hideIf_hideIf (slot : KeyState) (a b : Bool) : (slot.hideIf a).hideIf b = slot.hideIf (a || b) := by
  rw [KeyState.hideIf, KeyState.hideIf, KeyState.hideIf, Bool.or_assoc]

theorem hideIf_eq_iff {slot : KeyState} {a b : Bool} :
    slot.hideIf a = slot.hideIf b ↔ slot.hidden = true ∨ a = b := by
  obtain ⟨pKey, prevState, state, hidden⟩ := slot
  cases hidden <;> cases a <;> cases b <;> simp [KeyState.hideIf]

/-- With no key in two slots, a key is hidden in its slot. -/
theorem hideSlot_eq_map (hne : pKey ≠ noKey) (hnodup : (heldKeys slots).Nodup) :
    hideSlot pKey slots = slots.map fun slot => slot.hideIf (pKey = slot.pKey) := by
  induction slots with
  | nil => rfl
  | cons slot slots ih =>
    rw [hideSlot, List.map_cons]
    by_cases hfree : slot.pKey = noKey
    · rw [heldKeys_cons_free hfree] at hnodup
      rw [if_neg (hfree ▸ hne), decide_eq_false (hfree ▸ hne), hideIf_false, ih hnodup]
    · rw [heldKeys_cons_used hfree] at hnodup
      obtain ⟨hnot, hnodup⟩ := List.nodup_cons.mp hnodup
      split
      · next heq =>
        have hrest : ∀ other ∈ slots, other.hideIf (decide (pKey = other.pKey)) = other := by
          intro other hother
          have hother' : pKey ≠ other.pKey := fun hsame =>
            hnot (heq ▸ mem_heldKeys.mpr ⟨hne, other, hother, hsame.symm⟩)
          rw [decide_eq_false hother', hideIf_false]
        rw [List.map_congr_left hrest, List.map_id', decide_eq_true heq, KeyState.hideIf, Bool.or_true]
      · next hother => rw [ih hnodup, decide_eq_false hother, hideIf_false]

/-- The physical key that is hidden for a logical one. -/
def hiddenFor (hw : KeystateHardware) (lKey : LogicalKeycode) : LogicalKeycode :=
  Fin.ofNat 256 (lKey.val % hw.keypadLayerSize)

theorem hiddenFor_val (lKey : LogicalKeycode) :
    (hiddenFor hw lKey).val = lKey.val % hw.keypadLayerSize := by
  have hmod := Nat.mod_lt lKey.val hw.size_pos
  have hsize := hw.size_le
  exact Nat.mod_eq_of_lt (by omega)

theorem hiddenFor_ne_noKey (hw : KeystateHardware) (lKey : LogicalKeycode) : hiddenFor hw lKey ≠ noKey := by
  intro heq
  have hval := congrArg Fin.val heq
  have hmod := Nat.mod_lt lKey.val hw.size_pos
  have hsize := hw.size_le
  have hno : noKey.val = 255 := rfl
  rw [hiddenFor_val] at hval
  omega

/-- **Hiding some keys** hides the slots of their physical keys. -/
theorem foldl_hide_eq : ∀ (keys : List LogicalKeycode) {ks : Keystate}, (heldKeys ks.keyStates).Nodup →
    keys.foldl (keystateHideKey hw) ks = ks.hideIf fun pKey => keys.any fun k => hiddenFor hw k = pKey
  | [], ks, _ => by
    have hsame : ks.keyStates.map (fun slot => slot.hideIf false) = ks.keyStates := by
      simp only [hideIf_false, List.map_id']
    exact congrArg (fun slots => { ks with keyStates := slots }) hsame.symm
  | key :: keys, ks, hnodup => by
    have hslot := hideSlot_eq_map (hiddenFor_ne_noKey hw key) hnodup
    have hfirst : keystateHideKey hw ks key = ks.hideIf fun pKey => hiddenFor hw key = pKey :=
      congrArg (fun slots => { ks with keyStates := slots }) hslot
    have hnext : (heldKeys (keystateHideKey hw ks key).keyStates).Nodup := by
      rw [heldKeys_hide]
      exact hnodup
    have htwice : ∀ slot : KeyState,
        (slot.hideIf (hiddenFor hw key = slot.pKey)).hideIf (keys.any fun k => hiddenFor hw k = slot.pKey) =
          slot.hideIf ((key :: keys).any fun k => hiddenFor hw k = slot.pKey) := fun slot => by
      rw [hideIf_hideIf, List.any_cons]
    rw [List.foldl_cons, foldl_hide_eq keys hnext, hfirst]
    refine congrArg (fun slots => { ks with keyStates := slots }) ?_
    show (ks.keyStates.map _).map _ = _
    rw [List.map_map]
    exact List.map_congr_left fun slot _ => htwice slot

/-- Two ways to hide do the same if and only if they differ on hidden keys only. -/
theorem hideIf_inj {f g : LogicalKeycode → Bool} : ks.hideIf f = ks.hideIf g ↔
    ∀ slot ∈ ks.keyStates, slot.hidden = true ∨ f slot.pKey = g slot.pKey := by
  have hstates : ks.hideIf f = ks.hideIf g ↔ (ks.hideIf f).keyStates = (ks.hideIf g).keyStates := by
    constructor
    · intro h
      rw [h]
    · intro h
      exact congrArg (fun slots => { ks with keyStates := slots }) h
  rw [hstates]
  show ks.keyStates.map _ = ks.keyStates.map _ ↔ _
  rw [List.map_inj_left]
  simp only [hideIf_eq_iff]

/-! ## The trigger that matched -/

variable {store : TriggerStore} {definition : LogicalKeycode → HidKeycode} {key : MacroIdxKey}
  {count h : Nat} {multiKeyTrigger : Bool}

/-- The key of an entry that is found is the key that was looked for. -/
theorem macroIdxLookup_key (hlookup : macroIdxLookup store.macros store.index key = some h) :
    key = (store.index h).key :=
  macroIdxCmp_zero_iff.mp (bsearch_some hlookup).2

/-- Behind the keys that are pressed, there is only the filler. -/
def FilledBehind (key : MacroIdxKey) (count : Nat) : Prop := ∀ i, count ≤ i → key.keys.getD i noKey = noKey

/-- The keys of an array that is written place by place. -/
theorem getD_map_range (f : Nat → LogicalKeycode) (i : Nat) :
    ((List.range macroMaxKeys).map f).getD i noKey = if i < macroMaxKeys then f i else noKey := by
  rw [List.getD_eq_getElem?_getD, List.getElem?_map]
  split
  · next hlt => rw [List.getElem?_range hlt]; rfl
  · next hge => rw [List.getElem?_eq_none (by rw [List.length_range]; omega)]; rfl

theorem formatKey_filled (key : MacroIdxKey) (count : Nat) :
    FilledBehind (macroIdxFormatKey key count).1 count := by
  intro i hi
  have hkeys : (macroIdxFormatKey key count).1.keys = (List.range macroMaxKeys).map fun i =>
    if i < count then (insertionsortUint8 key.keys count).getD i 0 else noKey := rfl
  rw [hkeys, getD_map_range, if_neg (Nat.not_lt.mpr hi)]
  exact ite_self _

theorem singleKeyTrigger_filled (hfilled : FilledBehind key count) (hcount : 1 < count) :
    FilledBehind (singleKeyTrigger definition key count) count := by
  intro i hi
  rw [singleKeyTrigger]
  simp only [getD_map_range]
  rw [if_neg (show i ≠ 0 by omega), if_neg (Nat.not_lt.mpr hi), hfilled i hi]
  exact ite_self _

/-- What the lookups find is the key of its entry, and has only the filler behind. -/
theorem lookupTrigger_some {found : MacroIdxKey} (hfilled : FilledBehind key count)
    (hlookup : lookupTrigger store definition key count = some (found, multiKeyTrigger, h)) :
    found = (store.index h).key ∧ FilledBehind found count := by
  unfold lookupTrigger at hlookup
  split at hlookup
  · next hchord =>
    obtain ⟨rfl, rfl, rfl⟩ := hlookup
    exact ⟨macroIdxLookup_key hchord, hfilled⟩
  · split at hlookup
    · next hcount =>
      obtain ⟨h', hsingle, heq⟩ := Option.map_eq_some_iff.mp hlookup
      obtain ⟨rfl, rfl, rfl⟩ := heq
      exact ⟨macroIdxLookup_key hsingle, singleKeyTrigger_filled hfilled hcount⟩
    · exact nomatch hlookup

/-- Every key of the trigger is among those that are hidden. -/
theorem mem_take_of_filled (hfilled : FilledBehind key count) {k : LogicalKeycode} (hmem : k ∈ key.keys)
    (hne : k ≠ noKey) : k ∈ key.keys.take count := by
  obtain ⟨i, hi, rfl⟩ := List.getElem_of_mem hmem
  have hlt : i < count := by
    by_contra hge
    refine hne ?_
    rw [← hfilled i (Nat.not_lt.mp hge), List.getD_eq_getElem?_getD, List.getElem?_eq_getElem hi]
    rfl
  exact List.mem_take_iff_getElem.mpr ⟨i, by omega, rfl⟩

/-! ## The start of a program -/

variable {hw : KeyboardHardware} {it : Iteration} {kb : Keyboard}

/-- The filler is among the keys that are hidden, if the trigger has fewer keys than are pressed. -/
theorem any_hiddenFor_eq (hw : KeystateHardware) (hfilled : FilledBehind key count)
    (pKey : LogicalKeycode) : ((key.keys.take count).any fun k => hiddenFor hw k = pKey) =
      (decide (Belongs hw key pKey) ||
        decide (noKey ∈ key.keys.take count ∧ pKey.val = noKey.val % hw.keypadLayerSize)) := by
  rw [Bool.eq_iff_iff, List.any_eq_true, Bool.or_eq_true]
  simp only [decide_eq_true_eq, Fin.ext_iff, hiddenFor_val]
  constructor
  · rintro ⟨k, hk, heq⟩
    by_cases hne : k = noKey
    · subst hne
      exact .inr ⟨hk, heq.symm⟩
    · exact .inl ⟨k, List.mem_of_mem_take hk, hne, heq⟩
  · rintro (⟨k, hk, hne, heq⟩ | ⟨hmem, heq⟩)
    · exact ⟨k, mem_take_of_filled hfilled hk hne, heq⟩
    · exact ⟨noKey, hmem, heq.symm⟩

theorem startTrigger_program {found : MacroIdxKey} {h' : Nat}
    (hresult : startTrigger hw store kb found multiKeyTrigger h' = .program key h) :
    found = key ∧ h' = h := by
  unfold startTrigger at hresult
  dsimp only at hresult
  cases htype : (macroIdxGetData store.index h').type with
  | programEntry =>
    rw [htype] at hresult
    dsimp only at hresult
    split_ifs at hresult
    exact ⟨(TriggerResult.program.inj hresult).1, (TriggerResult.program.inj hresult).2⟩
  | macroEntry =>
    rw [htype] at hresult
    dsimp only at hresult
    split_ifs at hresult

theorem triggerResult_program (hresult : triggerResult hw store it kb = .program key h) :
    key = (store.index h).key ∧ FilledBehind key kb.keystate.keyPressCount.val := by
  have hfilled := formatKey_filled (readTriggerKey hw it kb) kb.keystate.keyPressCount.val
  unfold triggerResult at hresult
  dsimp only at hresult
  split_ifs at hresult
  split at hresult
  · exact nomatch hresult
  · next hlookup =>
    obtain ⟨rfl, rfl⟩ := startTrigger_program hresult
    exact lookupTrigger_some hfilled hlookup

/-- What the start of a program does. -/
theorem StartsProgram.spec (hstart : StartsProgram hw store it kb h) :
    let trigger := (store.index h).key
    let count := kb.keystate.keyPressCount.val
    FilledBehind trigger count ∧ (handleStateNormalLookup hw store it kb).keystate =
      (trigger.keys.take count).foldl (keystateHideKey hw.keystate) kb.keystate := by
  obtain ⟨hcount, hchord, key, hresult⟩ := hstart
  obtain ⟨rfl, hfilled⟩ := triggerResult_program hresult
  intro trigger count
  have houtcome : triggerOutcome hw store it kb = .program (trigger.keys.take count) := by
    rw [triggerOutcome, hresult]
  refine ⟨hfilled, ?_⟩
  rw [handleStateNormalLookup, handleStateNormal]
  dsimp only
  rw [if_neg hcount, hchord, houtcome]

/-- **The start of a program hides exactly the keys of its trigger** if and only if the trigger has as
    many keys as are pressed, or the physical key that the filler stands for is not held, or hidden
    already, or one of the trigger. -/
theorem program_hides_iff (hw : KeyboardHardware) (store : TriggerStore) (it : Iteration) (kb : Keyboard)
    (h : Nat) (steps : List KeyStep) (hkeys : kb.keystate = (runKeys hw.keystate keystateInit steps).1)
    (hstart : StartsProgram hw store it kb h) :
    let trigger := (store.index h).key
    HidesExactly hw.keystate trigger kb.keystate (handleStateNormalLookup hw store it kb).keystate ↔
      (noKey ∈ trigger.keys.take kb.keystate.keyPressCount.val → ∀ slot ∈ kb.keystate.keyStates,
        slot.pKey.val = noKey.val % hw.keystate.keypadLayerSize →
          slot.hidden = true ∨ Belongs hw.keystate trigger slot.pKey) := by
  obtain ⟨hfilled, hhide⟩ := hstart.spec
  have hnodup : (heldKeys kb.keystate.keyStates).Nodup := by
    rw [hkeys]
    exact (runKeys_table steps (keystateInit_ok hw.keystate).1 (keystateInit_ok hw.keystate).2).1.1.nodup
  intro trigger
  rw [HidesExactly, hhide, foldl_hide_eq _ hnodup, hideIf_inj]
  simp only [any_hiddenFor_eq hw.keystate hfilled]
  constructor
  · intro hexact hmem slot hslot hval
    rcases hexact slot hslot with hhidden | heq
    · exact .inl hhidden
    · right
      rw [decide_eq_true (show _ ∧ _ from ⟨hmem, hval⟩), Bool.or_true] at heq
      exact of_decide_eq_true heq.symm
  · intro hcond slot hslot
    by_cases hfiller : noKey ∈ trigger.keys.take kb.keystate.keyPressCount.val ∧
        slot.pKey.val = noKey.val % hw.keystate.keypadLayerSize
    · rcases hcond hfiller.1 slot hslot hfiller.2 with hhidden | hbelongs
      · exact .inl hhidden
      · right
        rw [decide_eq_true hbelongs, Bool.true_or]
    · right
      rw [decide_eq_false hfiller, Bool.or_false]

/-- The K80CS with some keys held, debounced. -/
def k80csHolding (keys : List LogicalKeycode) : Keyboard :=
  { k80csReset with keystate := (runKeys k80csKeyboard.keystate keystateInit
      (List.replicate 3 (k80csScan keys))).1 }

/-- A configuration with one program, for the trigger A. -/
def programForA : TriggerStore where
  macros := k80cs
  index := fun i => if i = 0 then ⟨⟨[4, noKey, noKey, noKey], rfl⟩, 0x8000⟩ else emptyEntry
  macrosEnabled := true
  programsEnabled := true
  startsPlayback := fun _ => true

/-- A and B are held: only A is hidden. -/
theorem program_hides_trigger_only : HidesExactly k80csKeyboard.keystate (programForA.index 0).key
    (k80csHolding [4, 5]).keystate (handleStateNormalLookup k80csKeyboard programForA
      (k80csIteration []) (k80csHolding [4, 5])).keystate := by
  have hfree : ∀ slot ∈ (k80csHolding [4, 5]).keystate.keyStates,
      slot.pKey.val ≠ noKey.val % k80csKeyboard.keystate.keypadLayerSize := by decide +kernel
  have hstart : StartsProgram k80csKeyboard programForA (k80csIteration []) (k80csHolding [4, 5]) 0 := by
    decide +kernel
  apply (program_hides_iff k80csKeyboard programForA (k80csIteration []) (k80csHolding [4, 5]) 0
    (List.replicate 3 (k80csScan [4, 5])) (by rw [k80csHolding]) hstart).mpr
  intro _ slot hslot hval
  exact absurd hval (hfree slot hslot)

/-- A and L are held: L is hidden too, for its key is 15, and so is 255 modulo 80. -/
theorem program_hides_other_key :
    StartsProgram k80csKeyboard programForA (k80csIteration []) (k80csHolding [4, 15]) 0 ∧
      ¬ HidesExactly k80csKeyboard.keystate (programForA.index 0).key (k80csHolding [4, 15]).keystate
        (handleStateNormalLookup k80csKeyboard programForA (k80csIteration [])
          (k80csHolding [4, 15])).keystate := by
  refine ⟨by decide +kernel, fun h => ?_⟩
  have hslots := congrArg Keystate.keyStates h
  exact absurd hslots (by decide +kernel)

end KeyboardFirmware
