/-
  The trigger of a macro that is to be recorded.

  A visit to the trigger state is the list of the keys held at its moments, the one at which it is
  entered and then one for every iteration (`visitStep`).  The handler keeps the keys of the last moment
  at which most of them were held, as long as every visit starts with `last_count` at zero
  (`VisitOk`).  The exit by the chord does not see to that, so the next visit may start with the keys
  of this one.
-/
import KeyboardFirmware.Keyboard.Keyboard
import KeyboardFirmware.Keystate.GetKeys
import KeyboardFirmware.Macro.IndexInv

namespace KeyboardFirmware

/-- The logical keys that are held, as far as the current layer reports them. -/
def heldLogicalKeys (hw : KeyboardHardware) (kb : Keyboard) : List LogicalKeycode :=
  ((heldKeys kb.keystate.keyStates).filter fun p =>
    isHidKeyToNotifyAbout (kb.definition (logicalKey hw.keystate kb.keystate.layer p))).map
    (logicalKey hw.keystate kb.keystate.layer)

/-- What happens to the keyboard: an iteration of the main loop, or a request of the host that may write
    the stored configuration. -/
inductive KeyboardStep
  | iterate (it : Iteration)
  | upload (config : Config)

/-- The moments of a visit: the keys held when the state is entered, and at every call of its handler. -/
def visitStep (hw : KeyboardHardware) (it : Iteration) (kb : Keyboard)
    (visit : List (List LogicalKeycode)) : List (List LogicalKeycode) :=
  let before := beforeDispatch hw it kb
  if before.currentState = .macroRecordTrigger then visit ++ [heldLogicalKeys hw before]
  else if (mainLoop hw it kb).1.currentState = .macroRecordTrigger then
    [heldLogicalKeys hw before]
  else []

/-- One step, with the visit it belongs to. -/
def KeyboardStep.apply (hw : KeyboardHardware) (st : Keyboard × List (List LogicalKeycode)) :
    KeyboardStep → Keyboard × List (List LogicalKeycode)
  | .iterate it => ((mainLoop hw it st.1).1, visitStep hw it st.1 st.2)
  | .upload config => ({ st.1 with config := config }, st.2)

/-- The steps one after the other. -/
def runVisits (hw : KeyboardHardware) (st : Keyboard × List (List LogicalKeycode))
    (steps : List KeyboardStep) : Keyboard × List (List LogicalKeycode) :=
  steps.foldl (KeyboardStep.apply hw) st

/-- The key is the set of the keys held at the last moment of the visit at which most keys were held;
    they were pressed after the visit began, and at least one of them has been released. -/
def Captures (visit : List (List LogicalKeycode)) (key : MacroIdxKey) : Prop :=
  visit.head? = some [] ∧ ∃ before m after, ∃ t : Trigger, visit = before ++ m :: after ∧
    (∀ held ∈ before, held.length ≤ m.length) ∧ (∀ held ∈ after, held.length < m.length) ∧
    after ≠ [] ∧ t.set = m.toFinset ∧ key = t.key

/-! ## The condition -/

/-- `keystate_get_keys` finds as many keys as are counted, and none of them has the code `NO_KEY`. -/
def ReadsKeys (hw : KeyboardHardware) (kb : Keyboard) : Prop :=
  (heldLogicalKeys hw kb).length = kb.keystate.keyPressCount.val ∧
    noKey ∉ heldLogicalKeys hw kb

/-- The trigger state is left by something else than its handler's own end: the chord, a message of the
    photosensor, or the failure of a recording. -/
def Interrupts (hw : KeyboardHardware) (it : Iteration) (kb : Keyboard) : Prop :=
  it.photosensor = true ∨ (kb.recordingMacro = true ∧ it.appendFails = true) ∨
    checkChord hw (beforeDispatch hw it kb) hw.chords.macroRecord = true

instance (hw : KeyboardHardware) (it : Iteration) (kb : Keyboard) : Decidable (Interrupts hw it kb) :=
  inferInstanceAs (Decidable (_ ∨ _))

instance (hw : KeyboardHardware) (kb : Keyboard) : Decidable (ReadsKeys hw kb) :=
  inferInstanceAs (Decidable (_ ∧ _))

/-- An iteration does not interrupt a visit in which a key was pressed, and the keys are read in full. -/
structure StepOk (hw : KeyboardHardware) (it : Iteration) (kb : Keyboard) : Prop where
  uninterrupted : kb.currentState = .macroRecordTrigger → Interrupts hw it kb → kb.lastCount = 0
  reads : (beforeDispatch hw it kb).currentState = .macroRecordTrigger ∨
      ((beforeDispatch hw it kb).currentState = .waiting ∧
        (beforeDispatch hw it kb).nextState = .macroRecordTrigger) →
    ReadsKeys hw (beforeDispatch hw it kb)

theorem stepOk_iff {hw : KeyboardHardware} {it : Iteration} {kb : Keyboard} :
    StepOk hw it kb ↔
      (kb.currentState = .macroRecordTrigger → Interrupts hw it kb → kb.lastCount = 0) ∧
      ((beforeDispatch hw it kb).currentState = .macroRecordTrigger ∨
          ((beforeDispatch hw it kb).currentState = .waiting ∧
            (beforeDispatch hw it kb).nextState = .macroRecordTrigger) →
        ReadsKeys hw (beforeDispatch hw it kb)) := ⟨fun h => ⟨h.1, h.2⟩, fun h => ⟨h.1, h.2⟩⟩

instance (hw : KeyboardHardware) (it : Iteration) (kb : Keyboard) : Decidable (StepOk hw it kb) :=
  decidable_of_iff _ stepOk_iff.symm

/-! ## What the other states do -/

/-- Keys are waited for only on the way to another state than the trigger state. -/
def WaitOk (kb : Keyboard) : Prop :=
  kb.waitKeyPressCount ≠ 0 →
    (kb.currentState = .macroPlay ∨ kb.currentState = .mergingMacroPlay) ∨
      ((kb.currentState = .waiting ∨ kb.currentState = .printing) ∧
        kb.nextState ≠ .macroRecordTrigger)

/-- What a switch over the states does, except in the trigger state. -/
structure Elsewhere (hw : KeyboardHardware) (kb kb' : Keyboard) : Prop where
  keystate : ∀ P : Keystate → Prop, P keystateInit →
    (∀ ks lKey, P ks → P (keystateHideKey hw.keystate ks lKey)) → P kb.keystate → P kb'.keystate
  lastCount : kb.lastCount = 0 → kb'.lastCount = 0
  enters : kb'.currentState = .macroRecordTrigger →
    kb.currentState = .waiting ∧ kb.nextState = .macroRecordTrigger ∧
      (kb.keystate.keyPressCount = 0 ∨ kb.waitKeyPressCount ≠ 0)
  wait : WaitOk kb → WaitOk kb'

namespace Elsewhere

variable {hw : KeyboardHardware} {kb kb' : Keyboard}

/-- From a state in which no keys are waited for. -/
theorem idle (hidle : kb.currentState = .normal ∨ kb.currentState = .programmingSrc ∨
      kb.currentState = .programmingDst ∨ kb.currentState = .macroRecord)
    (hkeystate : ∀ P : Keystate → Prop, P keystateInit →
      (∀ ks lKey, P ks → P (keystateHideKey hw.keystate ks lKey)) → P kb.keystate → P kb'.keystate)
    (hlast : kb.lastCount = 0 → kb'.lastCount = 0) (hstate : kb'.currentState ≠ .macroRecordTrigger)
    (hwait : kb'.waitKeyPressCount = kb.waitKeyPressCount ∨ WaitOk kb') : Elsewhere hw kb kb' where
  keystate := hkeystate
  lastCount := hlast
  enters := fun h => absurd h hstate
  wait := by
    intro h
    rcases hwait with heq | hok
    · intro hne
      rw [heq] at hne
      rcases h hne with (h | h) | ⟨h | h, -⟩ <;> rw [h] at hidle <;> simp at hidle
    · exact hok

section Normal

variable (hnormal : kb.currentState = .normal)

include hnormal

theorem same : Elsewhere hw kb kb :=
  idle (.inl hnormal) (fun _ _ _ h => h) id (by rw [hnormal]; decide) (.inl rfl)

theorem waits (next : State) (c : Config) (settings : Settings) :
    Elsewhere hw kb ({ kb with config := c, settings := settings }.wait next) :=
  idle (.inl hnormal) (fun _ _ _ h => h) id (nofun) (.inl rfl)

theorem setsUp (f : Byte → Keyboard) (hkeystate : ∀ n, (f n).keystate = kb.keystate)
    (hlast : ∀ n, (f n).lastCount = kb.lastCount) (n : Option Byte) :
    Elsewhere hw kb (match n with | some n => (f n).setupNumberFinish | none => kb) := by
  cases n with
  | none => exact same hnormal
  | some n =>
    refine idle (.inl hnormal) (fun P _ _ h => ?_) (fun h => (hlast n).trans h) (nofun)
      (.inr fun _ => .inr ⟨.inl rfl, nofun⟩)
    show P (f n).keystate
    rw [hkeystate]
    exact h

theorem layoutResult (r : Outcome × Config) : Elsewhere hw kb (kb.layoutResult r) := by
  unfold Keyboard.layoutResult
  split_ifs
  · exact waits hnormal .normal r.2 kb.settings
  · exact idle (.inl hnormal) (fun _ _ _ h => h) id (nofun) (.inl rfl)

theorem twoKeyChord (key : HidKeycode) :
    ∀ kb', KeyboardFirmware.twoKeyChord hw kb key = some kb' → Elsewhere hw kb kb' := by
  have hreboot : Elsewhere hw kb (keyboardInit kb.config kb.settings) :=
    idle (.inl hnormal) (fun _ h _ _ => h) (fun _ => rfl) (nofun)
      (.inr fun h => absurd rfl h)
  have hwaits := fun next c => @waits hw kb hnormal next c kb.settings
  have hdebounce := fun change => @setsUp hw kb hnormal (fun n => { kb with newDebounceLen := n })
    (fun _ => rfl) (fun _ => rfl) (setupNumber kb kb.settings.debounceLen kb.newDebounceLen change)
  have hmouse := fun change => @setsUp hw kb hnormal (fun n => { kb with newMouseDiv := n })
    (fun _ => rfl) (fun _ => rfl) (setupNumber kb kb.settings.mouseDiv kb.newMouseDiv change)
  have hwheel := fun change => @setsUp hw kb hnormal (fun n => { kb with newWheelDiv := n })
    (fun _ => rfl) (fun _ => rfl) (setupNumber kb kb.settings.wheelDiv kb.newWheelDiv change)
  refine chord_case (hwaits _ _) ?_
  refine chord_case (hwaits _ _) ?_
  refine chord_case hreboot ?_
  refine chord_case (hwaits _ _) ?_
  refine chord_case (hwaits _ _) ?_
  refine chord_case (hwaits _ _) ?_
  refine chord_case (hdebounce _) (chord_case (hdebounce _) ?_)
  refine chord_case (hmouse _) (chord_case (hmouse _) ?_)
  refine chord_case (hwheel _) (chord_case (hwheel _) ?_)
  exact fun _ hnone => (nomatch hnone)

theorem threeKeyChord (key₀ key₁ : HidKeycode) :
    ∀ kb', KeyboardFirmware.threeKeyChord hw kb key₀ key₁ = some kb' → Elsewhere hw kb kb' := by
  refine chord_case (waits hnormal _ _ _) fun kb' hchord => ?_
  split_ifs at hchord
  revert kb' hchord
  refine chord_case (layoutResult hnormal _) ?_
  refine chord_case (layoutResult hnormal _) ?_
  refine chord_case (layoutResult hnormal _) ?_
  exact fun _ hnone => (nomatch hnone)

theorem handleStateNormal (it : Iteration) :
    Elsewhere hw kb (KeyboardFirmware.handleStateNormal hw it kb) := by
  unfold KeyboardFirmware.handleStateNormal
  simp only
  split_ifs
  · exact same hnormal
  split
  · next kb' hchord =>
    unfold programChord at hchord
    split at hchord
    · split_ifs at hchord
      exact twoKeyChord hnormal _ kb' hchord
    · split_ifs at hchord
      exact threeKeyChord hnormal _ _ kb' hchord
    · exact (nomatch hchord)
  split
  · exact same hnormal
  · next hidden _ =>
    exact idle (.inl hnormal) (fun _ _ hhide h => foldl_hideKey hhide hidden h) id
      (by rw [hnormal]; decide) (.inl rfl)
  · next multiKeyTrigger mainKey _ =>
    refine idle (.inl hnormal) (fun _ _ hhide h => hhide _ mainKey h) id ?_ (.inr fun _ => ?_)
    · show (if multiKeyTrigger then State.macroPlay else .mergingMacroPlay) ≠ _
      split_ifs <;> decide
    · left
      show (if multiKeyTrigger then State.macroPlay else .mergingMacroPlay) = _ ∨
        (if multiKeyTrigger then State.macroPlay else .mergingMacroPlay) = _
      split_ifs
      · exact .inl rfl
      · exact .inr rfl

end Normal

theorem handleStateProgramming (hstate : kb.currentState = .programmingSrc ∨
    kb.currentState = .programmingDst) (it : Iteration) :
    Elsewhere hw kb (KeyboardFirmware.handleStateProgramming hw it kb) := by
  have hidle : kb.currentState = .normal ∨ kb.currentState = .programmingSrc ∨
      kb.currentState = .programmingDst ∨ kb.currentState = .macroRecord := by tauto
  have hne : kb.currentState ≠ .macroRecordTrigger := by
    rcases hstate with h | h <;> rw [h] <;> decide
  unfold KeyboardFirmware.handleStateProgramming
  simp only
  split_ifs
  · exact idle hidle (fun _ _ _ h => h) id hne (.inl rfl)
  · exact idle hidle (fun _ _ _ h => h) id (nofun) (.inl rfl)
  · exact idle hidle (fun _ _ _ h => h) id hne (.inl rfl)
  · exact idle hidle (fun _ _ _ h => h) id hne (.inl rfl)
  · exact idle hidle (fun _ _ _ h => h) id (nofun) (.inl rfl)
  · exact idle hidle (fun _ _ _ h => h) id (nofun) (.inl rfl)

/-- The trigger state is entered only when no keys are counted, or after a wait for some keys. -/
theorem dispatch (hstate : kb.currentState ≠ .macroRecordTrigger) (it : Iteration) :
    Elsewhere hw kb (KeyboardFirmware.dispatch hw it kb).1 := by
  have hstays : ∀ {kb' : Keyboard}, kb' = kb → Elsewhere hw kb kb' := by
    rintro _ rfl
    exact ⟨fun _ _ _ h => h, id, fun h => absurd h hstate, id⟩
  unfold KeyboardFirmware.dispatch
  cases hcurrent : kb.currentState with
  | normal => exact handleStateNormal hcurrent it
  | waiting =>
    simp only
    split_ifs with hover
    · refine ⟨fun _ _ _ h => h, id, fun h => ⟨hcurrent, h, hover.imp_right And.right⟩, ?_⟩
      exact fun _ hne => absurd rfl hne
    · exact hstays rfl
  | printing =>
    simp only
    split_ifs
    · refine ⟨fun _ _ _ h => h, id, nofun, fun h hne => ?_⟩
      rcases h hne with (h | h) | ⟨-, hnext⟩
      · rw [hcurrent] at h
        exact (nomatch h)
      · rw [hcurrent] at h
        exact (nomatch h)
      · exact .inr ⟨.inl rfl, hnext⟩
    · exact hstays rfl
  | programmingSrc => exact handleStateProgramming (.inl hcurrent) it
  | programmingDst => exact handleStateProgramming (.inr hcurrent) it
  | macroRecordTrigger => exact absurd hcurrent hstate
  | macroRecord =>
    show Elsewhere hw kb (handleStateMacroRecord hw kb)
    unfold handleStateMacroRecord
    split_ifs
    · exact idle (by tauto) (fun _ _ _ h => h) id (nofun) (.inl rfl)
    · exact idle (by tauto) (fun _ _ _ h => h) id hstate (.inl rfl)
  | mergingMacroPlay => exact hstays rfl
  | macroPlay => exact hstays rfl

theorem started (hstate : kb.currentState ≠ .macroRecordTrigger) (it : Iteration) :
    (KeyboardFirmware.dispatch hw it kb).2 = none := by
  unfold KeyboardFirmware.dispatch
  split
  case h_6 h => exact absurd h hstate
  all_goals first | rfl | (simp only; split_ifs <;> rfl)

end Elsewhere

/-! ## Visits -/

/-- The handler's variables hold the keys of the last moment, and at no moment before it were more keys
    held. -/
def TriggerRecorded (kb : Keyboard) (visit : List (List LogicalKeycode)) : Prop :=
  visit.head? = some [] ∧ ∃ before m, visit = before ++ [m] ∧
    (∀ held ∈ before, held.length ≤ m.length) ∧ m.length = kb.lastCount.val ∧
    m.length ≤ macroMaxKeys ∧ m.Nodup ∧ noKey ∉ m ∧ kb.triggerKey.keys.take m.length = m

/-- What holds between the steps. -/
structure VisitOk (hw : KeyboardHardware) (kb : Keyboard) (visit : List (List LogicalKeycode)) :
    Prop where
  table : TableOk kb.keystate
  bits : BitsOk hw.keystate kb.keystate
  wait : WaitOk kb
  away : kb.currentState ≠ .macroRecordTrigger → kb.lastCount = 0
  inside : kb.currentState = .macroRecordTrigger → TriggerRecorded kb visit

/-- What the part in front of the switch does: it leaves the handler's variables, and never leads to the
    trigger state. -/
structure Before (hw : KeyboardHardware) (kb kb' : Keyboard) : Prop where
  keys : TableOk kb.keystate → BitsOk hw.keystate kb.keystate →
    TableOk kb'.keystate ∧ BitsOk hw.keystate kb'.keystate
  lastCount : kb'.lastCount = kb.lastCount
  triggerKey : kb'.triggerKey = kb.triggerKey
  state : kb'.currentState = .macroRecordTrigger → kb.currentState = .macroRecordTrigger
  wait : WaitOk kb → WaitOk kb'

namespace Before

variable {hw : KeyboardHardware} {kb kb' kb'' : Keyboard}

theorem trans (h : Before hw kb kb') (h' : Before hw kb' kb'') : Before hw kb kb'' where
  keys := fun ht hb => h'.keys (h.keys ht hb).1 (h.keys ht hb).2
  lastCount := h'.lastCount.trans h.lastCount
  triggerKey := h'.triggerKey.trans h.triggerKey
  state := fun hs => h.state (h'.state hs)
  wait := fun hw => h'.wait (h.wait hw)

theorem updateKeys (hw : KeyboardHardware) (it : Iteration) (kb : Keyboard) :
    Before hw kb (KeyboardFirmware.updateKeys hw it kb) := by
  unfold KeyboardFirmware.updateKeys
  cases it.scan with
  | none => exact ⟨fun ht hb => ⟨ht, hb⟩, rfl, rfl, id, id⟩
  | some scan =>
    have hkeys : TableOk kb.keystate → BitsOk hw.keystate kb.keystate → _ := fun ht hb =>
      (KeyStep.update { scan with definition := kb.definition }).apply_ok ht hb
    simp only
    split_ifs
    · exact ⟨hkeys, rfl, rfl, by rintro ⟨⟩, fun _ _ => .inr ⟨.inl rfl, by rintro ⟨⟩⟩⟩
    · exact ⟨hkeys, rfl, rfl, id, id⟩

theorem photosensor (hw : KeyboardHardware) (kb : Keyboard) :
    Before hw kb { kb with nextState := kb.currentState, currentState := .printing } := by
  refine ⟨fun ht hb => ⟨ht, hb⟩, rfl, rfl, nofun, fun h hne => .inr ⟨.inr rfl, fun hnext => ?_⟩⟩
  have hnext : kb.currentState = .macroRecordTrigger := hnext
  rcases h hne with (h | h) | ⟨h | h, -⟩ <;> exact absurd (h.symm.trans hnext) (by decide)

theorem saveNumbers (hw : KeyboardHardware) (kb : Keyboard) :
    Before hw kb (KeyboardFirmware.saveNumbers kb) := by
  unfold KeyboardFirmware.saveNumbers
  split_ifs <;> exact ⟨fun ht hb => ⟨ht, hb⟩, rfl, rfl, id, id⟩

theorem beforeDispatch (hw : KeyboardHardware) (it : Iteration) (kb : Keyboard) :
    Before hw kb (KeyboardFirmware.beforeDispatch hw it kb) := by
  refine ((updateKeys hw it kb).trans ?_).trans (saveNumbers hw _)
  split_ifs
  · exact photosensor hw _
  · exact ⟨fun ht hb => ⟨ht, hb⟩, rfl, rfl, id, id⟩

end Before

section Step

variable {hw : KeyboardHardware} {it : Iteration} {kb : Keyboard}

/-- Without an interruption the trigger state is kept up to the switch. -/
theorem beforeDispatch_stays (hstate : kb.currentState = .macroRecordTrigger)
    (hnot : ¬ Interrupts hw it kb) :
    (beforeDispatch hw it kb).currentState = .macroRecordTrigger := by
  obtain ⟨hsensor, hrest⟩ := not_or.mp hnot
  obtain ⟨hhook, -⟩ := not_or.mp hrest
  have hupdate : (updateKeys hw it kb).currentState = .macroRecordTrigger := by
    unfold updateKeys
    cases it.scan with
    | none => exact hstate
    | some scan =>
      simp only
      rw [if_neg (by simpa using hhook)]
      exact hstate
  have hnumbers : ∀ kb : Keyboard, (saveNumbers kb).currentState = kb.currentState := fun kb => by
    unfold saveNumbers
    split_ifs <;> rfl
  unfold beforeDispatch
  simp only
  rw [if_neg hsensor, hnumbers]
  exact hupdate

/-- The handler reads the held keys. -/
theorem pressedKeys_eq (htable : TableOk kb.keystate) (hreads : ReadsKeys hw kb) :
    pressedKeys hw kb = heldLogicalKeys hw kb ∧ (heldLogicalKeys hw kb).Nodup := by
  have hlength := hreads.1
  rw [heldLogicalKeys, List.length_map] at hlength
  constructor
  · rw [pressedKeys, getKeys_eq htable, ← hlength, List.take_length]
    rfl
  · have hinj : Function.Injective (keycodeOf hw.keystate kb.definition kb.keystate.layer .logical) :=
      keycodeOf_injective _ _ (.inr rfl)
    exact (htable.nodup.filter _).map hinj

/-- In the trigger state no keys are waited for. -/
theorem WaitOk.trigger (h : WaitOk kb) (hstate : kb.currentState = .macroRecordTrigger) :
    kb.waitKeyPressCount = 0 := by
  by_contra hne
  rcases h hne with (h | h) | ⟨h | h, -⟩ <;> exact absurd (h.symm.trans hstate) (by decide)

/-- Fewer keys are held than at the last moment: its keys are the trigger. -/
theorem TriggerRecorded.captures {visit : List (List LogicalKeycode)} (h : TriggerRecorded kb visit)
    {held : List LogicalKeycode} (hfewer : held.length < kb.lastCount.val) :
    ∃ t : Trigger, macroIdxFormatKey kb.triggerKey kb.lastCount.val = (t.key, true) ∧
      Captures (visit ++ [held]) t.key := by
  obtain ⟨hentry, before, m, rfl, hbefore, hlen, hmax, hnodup, hnoKey, hkeys⟩ := h
  have hne : m ≠ [] := fun hm => by
    rw [hm] at hlen
    exact absurd (hlen ▸ hfewer) (Nat.not_lt_zero _)
  let t : Trigger :=
    { set := m.toFinset
      nonempty := (List.toFinset_nonempty_iff m).mpr hne
      card_le := (List.toFinset_card_of_nodup hnodup).trans_le hmax
      noKey_notMem := fun hmem => hnoKey (List.mem_toFinset.mp hmem) }
  refine ⟨t, hlen ▸ format_key_spec t kb.triggerKey m hnodup rfl hkeys, ?_, before, m, [held], t, ?_,
    hbefore, ?_, by simp, rfl, rfl⟩
  · rw [List.head?_append, hentry]
    rfl
  · rw [List.append_assoc]
    rfl
  · simpa using hlen ▸ hfewer

/-- The keys are read at a moment at which no fewer of them are held. -/
theorem TriggerRecorded.write {visit : List (List LogicalKeycode)} (h : TriggerRecorded kb visit)
    {held : List LogicalKeycode} (hmore : kb.lastCount.val ≤ held.length)
    (hmax : held.length ≤ macroMaxKeys) (hnodup : held.Nodup) (hnoKey : noKey ∉ held)
    {count : Byte} (hcount : held.length = count.val) :
    TriggerRecorded { kb with triggerKey := kb.triggerKey.write held, lastCount := count }
      (visit ++ [held]) := by
  obtain ⟨hentry, before, m, rfl, hbefore, hlen, -⟩ := h
  refine ⟨?_, before ++ [m], held, rfl, fun x hx => ?_, hcount, hmax, hnodup, hnoKey, ?_⟩
  · rw [List.head?_append, hentry]
    rfl
  · rcases List.mem_append.mp hx with hx | hx
    · exact (hbefore x hx).trans (hlen ▸ hmore)
    · obtain rfl := List.mem_singleton.mp hx
      exact hlen ▸ hmore
  · show ((held ++ _).take macroMaxKeys).take held.length = held
    rw [List.take_take, Nat.min_eq_left hmax, List.take_left]

/-- What the handler of the trigger state does at a moment with the keys `held`. -/
theorem handleStateMacroRecordTrigger_spec {visit : List (List LogicalKeycode)} (it : Iteration)
    (hstate : kb.currentState = .macroRecordTrigger) (htable : TableOk kb.keystate)
    (hreads : ReadsKeys hw kb) (h : TriggerRecorded kb visit)
    (hchord : checkChord hw kb hw.chords.macroRecord = true → kb.lastCount = 0) :
    let r := handleStateMacroRecordTrigger hw it kb
    let visit' := visit ++ [heldLogicalKeys hw kb]
    r.1.keystate = kb.keystate ∧ r.1.waitKeyPressCount = kb.waitKeyPressCount ∧
      (r.1.currentState ≠ .macroRecordTrigger → r.1.lastCount = 0) ∧
      (r.1.currentState = .macroRecordTrigger → TriggerRecorded r.1 visit') ∧
      ∀ key, r.2 = some key → Captures visit' key := by
  intro r visit'
  obtain ⟨hread, hnodup⟩ := pressedKeys_eq htable hreads
  obtain ⟨hcount, hnoKey⟩ := hreads
  -- fewer keys: the key is formatted, and is valid
  have hfewer : ¬ kb.keystate.keyPressCount ≥ kb.lastCount →
      ∃ key, macroIdxFormatKey kb.triggerKey kb.lastCount.val = (key, true) ∧
        Captures visit' key := fun hmore => by
    have hlt : (heldLogicalKeys hw kb).length < kb.lastCount.val := by
      rw [hcount]
      exact not_le.mp hmore
    obtain ⟨t, hformat, hcaptures⟩ := h.captures hlt
    exact ⟨t.key, hformat, hcaptures⟩
  simp only [r, handleStateMacroRecordTrigger]
  split_ifs with hcancel hmany hmore hinvalid
  · exact ⟨rfl, rfl, fun _ => hchord hcancel, nofun, nofun⟩
  · exact ⟨rfl, rfl, fun _ => rfl, nofun, nofun⟩
  · refine ⟨rfl, rfl, fun hne => absurd hstate hne, fun _ => ?_, nofun⟩
    rw [hread]
    exact h.write (by rw [hcount]; exact hmore) (by rw [hcount]; exact not_lt.mp hmany) hnodup
      hnoKey hcount
  · obtain ⟨key, hformat, -⟩ := hfewer hmore
    simp [hformat] at hinvalid
  all_goals
    obtain ⟨key, hformat, hcaptures⟩ := hfewer hmore
    rw [hformat]
    refine ⟨rfl, rfl, fun _ => rfl, nofun, fun key' hkey => ?_⟩
    obtain rfl := Option.some_inj.mp hkey
    exact hcaptures

/-- **Step**: an iteration that meets the condition starts a macro only with a captured trigger. -/
theorem VisitOk.mainLoop {visit : List (List LogicalKeycode)} (h : VisitOk hw kb visit)
    (hok : StepOk hw it kb) :
    VisitOk hw (KeyboardFirmware.mainLoop hw it kb).1 (visitStep hw it kb visit) ∧
      ∀ key, (KeyboardFirmware.mainLoop hw it kb).2 = some key →
        Captures (visitStep hw it kb visit) key := by
  have hbefore := Before.beforeDispatch hw it kb
  obtain ⟨htable, hbits⟩ := hbefore.keys h.table h.bits
  have hwait := hbefore.wait h.wait
  -- the end of a playback does not concern the trigger state
  have hfill : ∀ {kb' : Keyboard} {visit' : List (List LogicalKeycode)}, VisitOk hw kb' visit' →
      VisitOk hw (fillKeyboardReport it kb') visit' := fun h => by
    unfold fillKeyboardReport
    split_ifs with hplay
    · refine ⟨h.table, h.bits, fun _ => .inr ⟨.inl rfl, nofun⟩, fun _ => h.away ?_, nofun⟩
      rcases hplay.1 with hs | hs <;> rw [hs] <;> decide
    · exact h
  have hfillState : ∀ kb' : Keyboard,
      (fillKeyboardReport it kb').currentState = .macroRecordTrigger ↔
        kb'.currentState = .macroRecordTrigger := fun kb' => by
    unfold fillKeyboardReport
    split_ifs with hplay
    · refine iff_of_false nofun fun hs => ?_
      rw [hs] at hplay
      simp at hplay
    · rfl
  have hmain : KeyboardFirmware.mainLoop hw it kb =
      (fillKeyboardReport it (dispatch hw it (beforeDispatch hw it kb)).1,
        (dispatch hw it (beforeDispatch hw it kb)).2) := rfl
  unfold visitStep
  simp only [hmain]
  generalize hkb : beforeDispatch hw it kb = kb₁ at *
  by_cases hstate : kb₁.currentState = .macroRecordTrigger
  · have hinside := h.inside (hbefore.state hstate)
    have hrecorded : TriggerRecorded kb₁ visit := by
      unfold TriggerRecorded
      rw [hbefore.lastCount, hbefore.triggerKey]
      exact hinside
    have hdispatch : dispatch hw it kb₁ = handleStateMacroRecordTrigger hw it kb₁ := by
      unfold dispatch
      rw [hstate]
    obtain ⟨hkeystate, hcount, haway, hin, hstarts⟩ := handleStateMacroRecordTrigger_spec
      it hstate htable (hkb ▸ hok.reads (.inl (hkb ▸ hstate))) hrecorded fun hchord => by
        rw [hbefore.lastCount]
        exact hok.uninterrupted (hbefore.state hstate) (.inr (.inr (hkb ▸ hchord)))
    rw [if_pos hstate, hdispatch]
    refine ⟨hfill ⟨hkeystate ▸ htable, hkeystate ▸ hbits, ?_, haway, hin⟩, hstarts⟩
    exact fun hne => absurd (hcount.trans (hwait.trigger hstate)) hne
  · have helse : Elsewhere hw kb₁ (dispatch hw it kb₁).1 := Elsewhere.dispatch hstate it
    have haway : kb₁.lastCount = 0 := by
      rw [hbefore.lastCount]
      by_cases htrigger : kb.currentState = .macroRecordTrigger
      · by_contra hlast
        exact hstate (hkb ▸ beforeDispatch_stays htrigger fun hint =>
          hlast (hok.uninterrupted htrigger hint))
      · exact h.away htrigger
    rw [if_neg hstate, Elsewhere.started hstate]
    refine ⟨hfill ?_, nofun⟩
    obtain ⟨htable', hbits'⟩ := helse.keystate
      (fun ks => TableOk ks ∧ BitsOk hw.keystate ks) (keystateInit_ok _)
      (fun ks lKey hks => (KeyStep.hide lKey).apply_ok hks.1 hks.2) ⟨htable, hbits⟩
    refine ⟨htable', hbits', helse.wait hwait, fun _ => helse.lastCount haway, fun henter => ?_⟩
    -- the state is entered while no key is held
    obtain ⟨hwaiting, hnext, hnone⟩ := helse.enters henter
    have hzero : kb₁.keystate.keyPressCount = 0 := hnone.resolve_right fun hne => by
      rcases hwait hne with (hs | hs) | ⟨-, hs⟩
      · exact absurd (hs.symm.trans hwaiting) (by decide)
      · exact absurd (hs.symm.trans hwaiting) (by decide)
      · exact hs hnext
    have hheld : heldLogicalKeys hw kb₁ = [] := by
      have hreads := (hkb ▸ hok.reads (.inr ⟨hkb ▸ hwaiting, hkb ▸ hnext⟩) : ReadsKeys hw kb₁).1
      rw [hzero] at hreads
      exact List.length_eq_zero_iff.mp hreads
    rw [if_pos ((hfillState _).mpr henter), hheld]
    refine ⟨rfl, [], [], rfl, nofun, ?_, Nat.zero_le _, List.nodup_nil, nofun, rfl⟩
    rw [helse.lastCount haway]
    rfl

end Step

/-! ## Runs -/

/-- Every iteration of a run meets the condition. -/
def RunOk (hw : KeyboardHardware) : Keyboard × List (List LogicalKeycode) → List KeyboardStep → Prop
  | _, [] => True
  | st, .iterate it :: steps =>
    StepOk hw it st.1 ∧ RunOk hw (KeyboardStep.apply hw st (.iterate it)) steps
  | st, .upload config :: steps => RunOk hw (KeyboardStep.apply hw st (.upload config)) steps

instance RunOk.decidable (hw : KeyboardHardware) : ∀ (st : Keyboard × List (List LogicalKeycode))
    (steps : List KeyboardStep), Decidable (RunOk hw st steps)
  | _, [] => .isTrue trivial
  | st, .iterate it :: steps =>
    have := RunOk.decidable hw (KeyboardStep.apply hw st (.iterate it)) steps
    inferInstanceAs (Decidable (StepOk hw it st.1 ∧
      RunOk hw (KeyboardStep.apply hw st (.iterate it)) steps))
  | st, .upload config :: steps =>
    RunOk.decidable hw (KeyboardStep.apply hw st (.upload config)) steps

theorem RunOk.run {hw : KeyboardHardware} : ∀ (pre : List KeyboardStep) {rest : List KeyboardStep}
    {st : Keyboard × List (List LogicalKeycode)}, RunOk hw st (pre ++ rest) →
    VisitOk hw st.1 st.2 →
    VisitOk hw (runVisits hw st pre).1 (runVisits hw st pre).2 ∧ RunOk hw (runVisits hw st pre) rest
  | [], _, _, hrun, h => ⟨h, hrun⟩
  | .iterate _ :: pre, _, _, hrun, h => RunOk.run pre hrun.2 (h.mainLoop hrun.1).1
  | .upload _ :: pre, _, _, hrun, h => RunOk.run pre hrun { h with }

/-- **The captured trigger.**  In every run in which no visit to the trigger state is interrupted after a
    key was pressed, and the held keys are read in full, the key that a recording starts with is the set
    of the keys held at the last moment of the visit at which most were held; they were pressed after
    the state was entered, and one of them has been released. -/
theorem trigger_captured (hw : KeyboardHardware) (config : Config) (settings : Settings)
    (pre : List KeyboardStep) (it : Iteration) (post : List KeyboardStep)
    (hrun : RunOk hw (keyboardInit config settings, []) (pre ++ .iterate it :: post)) :
    let st := runVisits hw (keyboardInit config settings, []) pre
    ∀ key, (mainLoop hw it st.1).2 = some key → Captures (visitStep hw it st.1 st.2) key := by
  have hinit : VisitOk hw (keyboardInit config settings) [] :=
    ⟨(keystateInit_ok hw.keystate).1, (keystateInit_ok hw.keystate).2, fun h => absurd rfl h,
      fun _ => rfl, nofun⟩
  obtain ⟨hvisit, hstep, -⟩ := RunOk.run pre hrun hinit
  exact (hvisit.mainLoop hstep).2

/-- An iteration on the K80CS with the keys down, debounced at once. -/
def k80csIteration (keys : List LogicalKeycode) : Iteration where
  scan := some ⟨1, by decide, by decide, fun l => k80csLayout.logicalToHidMapDefault l,
    pressing k80csKeystate keys⟩
  junk := fun _ => noKey
  photosensor := false
  printed := true
  trigger := .none
  macroStarts := true
  appendFails := false
  playbackOver := false

/-- The K80CS after a full reset. -/
def k80csReset : Keyboard :=
  keyboardInit (configResetFully k80csLayout ⟨fun _ => noKey, fun _ => noIdx, fun _ => ⟨noKey, noKey⟩⟩)
    ⟨3, 25, 4⟩

/-- PROGRAM and W are pressed and released, and then A. -/
theorem trigger_captured_k80cs :
    let pre := [.iterate (k80csIteration [0, 26]), .iterate (k80csIteration []),
      .iterate (k80csIteration [4])]
    let st := runVisits k80csKeyboard (k80csReset, []) pre
    ∃ key, (mainLoop k80csKeyboard (k80csIteration []) st.1).2 = some key ∧ key.keys = [4, 0xFF, 0xFF, 0xFF] ∧
      Captures (visitStep k80csKeyboard (k80csIteration []) st.1 st.2) key := by
  intro pre st
  obtain ⟨hstart, hrun⟩ : (mainLoop k80csKeyboard (k80csIteration []) st.1).2 =
        some ⟨[4, 0xFF, 0xFF, 0xFF], rfl⟩ ∧
      RunOk k80csKeyboard (k80csReset, []) (pre ++ .iterate (k80csIteration []) :: []) := by
    decide +kernel
  exact ⟨_, hstart, rfl, trigger_captured k80csKeyboard _ _ pre (k80csIteration []) [] hrun _ hstart⟩

/-- The chord that ends a visit is pressed key by key, PROGRAM first; the next visit starts a recording
    for the trigger PROGRAM before any key is pressed. -/
theorem cancelled_visit_leaks_key :
    let chord := [KeyboardStep.iterate (k80csIteration [0, 26]), .iterate (k80csIteration [])]
    let pre := chord ++ .iterate (k80csIteration [0]) :: chord ++ chord
    let st := runVisits k80csKeyboard (k80csReset, []) pre
    ∃ key, (mainLoop k80csKeyboard (k80csIteration []) st.1).2 = some key ∧
      key.keys = [0, 0xFF, 0xFF, 0xFF] ∧
      ¬ Captures (visitStep k80csKeyboard (k80csIteration []) st.1 st.2) key := by
  intro chord pre st
  obtain ⟨hstart, hvisit⟩ : (mainLoop k80csKeyboard (k80csIteration []) st.1).2 =
        some ⟨[0, 0xFF, 0xFF, 0xFF], rfl⟩ ∧
      visitStep k80csKeyboard (k80csIteration []) st.1 st.2 = [[], []] := by decide +kernel
  refine ⟨_, hstart, rfl, ?_⟩
  rw [hvisit]
  rintro ⟨-, before, m, after, -, heq, -, hafter, hne, -⟩
  have hm : m = [] := by
    have hmem : m ∈ [[], []] := heq ▸ List.mem_append_right _ List.mem_cons_self
    simpa using hmem
  obtain ⟨held, hheld⟩ := List.exists_mem_of_ne_nil after hne
  have hlt := hafter held hheld
  rw [hm] at hlt
  exact absurd hlt (Nat.not_lt_zero _)

end KeyboardFirmware
