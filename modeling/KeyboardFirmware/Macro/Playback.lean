/-
  Recording through the change hook, and playing back.

  The hook records the code of each change, pressed or released; playback toggles the codes one by one
  in the extra report.  After the same events the report shows the codes that were held
  (`shows_toggled`), provided that no two held keys had the same code and that the codes found places:
  then every toggle of the playback does what the key did.  `playback_reproduces_recording` is the
  result from the first event to the last report.
-/
import KeyboardFirmware.Keystate.Events
import KeyboardFirmware.Macro.Bounds
import KeyboardFirmware.Macro.ExtraReport

namespace KeyboardFirmware

open Lib
open Vm (ExtraKeyboardReport)

/-! ## Recording -/

/-- `macro_record_hook`, for one change; `programHeld` is what it finds out about the program key. -/
def macroRecordHook (hw : Hardware) (definition : LogicalKeycode → HidKeycode) (programHeld : Bool)
    (st : MacroStore) (event : KeyEvent) : MacroStore :=
  if programHeld then st
  else
    let hKey := definition event.lKey
    if hKey ≥ specialHidKeysStart then st
    else if macrosAppendOk st hKey then macrosAppend st hKey
    else macrosAbortMacro hw (macrosAppend st hKey)

/-! ## Playing back -/

/-- `_macro_playback_state`. -/
structure PlaybackState where
  remaining : Fin 65536
  cursor : Nat
  report : ExtraKeyboardReport

/-- `macros_start_playback`. -/
def macrosStartPlayback (mem : Storage) (macroOffset : Nat) : PlaybackState where
  remaining := storageReadShort mem (macros macroOffset)
  cursor := eventsOf (macros macroOffset)
  report := ExtraKeyboardReport.clear

/-- `macros_fill_next_report`: whether there is more to play, the new state, and the report. -/
def macrosFillNextReport (mem : Storage) (ps : PlaybackState) (report : KeyboardReport) :
    Bool × PlaybackState × KeyboardReport :=
  if ps.remaining ≠ 0 then
    let remaining := ps.remaining - 1
    let event := mem ps.cursor
    let extra := ps.report.toggle (hidByte event)
    (remaining ≠ 0, ⟨remaining, ps.cursor + 1, extra⟩, extra.append report)
  else (false, ps, report)

/-- The reports filled during playback, each into an empty one, until there is no more to play;
    at most `calls` of them. -/
def playReports (mem : Storage) : Nat → PlaybackState → List KeyboardReport
  | 0, _ => []
  | calls + 1, ps =>
    let next := macrosFillNextReport mem ps emptyReport
    next.2.2 :: if next.1 then playReports mem calls next.2.1 else []

/-- The playback of what a key stands for, if it is a macro. -/
def playTrigger (hw : Hardware) (st : MacroStore) (key : MacroIdxKey) :
    Option (List KeyboardReport) :=
  (macroIdxLookup hw st.index key).bind fun entry =>
    let d := macroIdxGetData st.index entry
    match d.type with
    | .programEntry => none
    | .macroEntry => some (playReports st.mem 65536 (macrosStartPlayback st.mem d.data))

/-! ## What is held -/

/-- Every key is pressed and released in turn, up to begin with, and released as what it was pressed. -/
def Balanced (events : List KeyEvent) : Prop :=
  ∀ p, Alternates none (events.filter fun event => event.pKey = p)

/-- The code a physical key holds after the events, if it is down with one that is not special. -/
def heldCode (definition : LogicalKeycode → HidKeycode) (events : List KeyEvent)
    (p : LogicalKeycode) : Option HidKeycode :=
  ((stillDown none (events.filter fun event => event.pKey = p)).map definition).filter fun c =>
    c < specialHidKeysStart

/-- The codes held after the events, key by key. -/
def heldCodes (definition : LogicalKeycode → HidKeycode) (events : List KeyEvent) :
    List HidKeycode :=
  (List.finRange 256).filterMap (heldCode definition events)

/-- The codes the hook records. -/
def recordedCodes (definition : LogicalKeycode → HidKeycode) (events : List KeyEvent) :
    List HidKeycode :=
  (events.map fun event => definition event.lKey).filter fun c => c < specialHidKeysStart

/-- What is held can be shown: the keys have different codes, and at most six of them are not
    modifiers. -/
def HeldApart (definition : LogicalKeycode → HidKeycode) (events : List KeyEvent) : Prop :=
  (heldCodes definition events).Nodup ∧
    (placed (heldCodes definition events)).length ≤ extraReportKeyCount

variable {hw : Hardware} {definition : LogicalKeycode → HidKeycode} {events : List KeyEvent}
  {event : KeyEvent}

/-- The events of a run of `keystate.c` that starts with no key counted are balanced. -/
theorem runKeys_balanced {hw : KeystateHardware} {ks : Keystate} {before : List KeyEvent}
    (h : EventsOk hw definition ks before) (hidle : ks.keyPressCount = 0) (steps : List KeyStep)
    (hsteady : SteadyMapping hw ks definition steps) : Balanced (runKeys hw ks steps).2 := by
  intro p
  have hcount : reportedCount definition ks = 0 := by
    rw [← h.count, hidle]
    rfl
  have hup : downKey hw definition ks p = none := by
    refine if_neg fun hdown => ?_
    exact List.countP_eq_zero.mp hcount p hdown.1 hdown.2
  have hall := (h.run steps hsteady).alternates p
  rw [List.filter_append, alternates_append, h.down p, hup] at hall
  exact hall.2

theorem Balanced.left {more : List KeyEvent} (h : Balanced (events ++ more)) : Balanced events :=
  fun p => by
    have hp := h p
    rw [List.filter_append, alternates_append] at hp
    exact hp.1

theorem heldCode_of_ne {p : LogicalKeycode} (hp : p ≠ event.pKey) :
    heldCode definition (events ++ [event]) p = heldCode definition events p := by
  have hskip : ([event].filter fun e => e.pKey = p) = [] :=
    List.filter_cons_of_neg (by simpa using Ne.symm hp)
  rw [heldCode, List.filter_append, hskip, List.append_nil, heldCode]

/-- The key of an event, before and after it. -/
theorem heldCode_event (definition : LogicalKeycode → HidKeycode)
    (h : Balanced (events ++ [event])) :
    let code := (some (definition event.lKey)).filter fun c => c < specialHidKeysStart
    heldCode definition events event.pKey = (if event.press then none else code) ∧
      heldCode definition (events ++ [event]) event.pKey = if event.press then code else none := by
  have hown : ([event].filter fun e => e.pKey = event.pKey) = [event] :=
    List.filter_cons_of_pos (by simp)
  have halt := h event.pKey
  rw [List.filter_append, hown, alternates_append] at halt
  obtain ⟨-, hlast⟩ := halt
  constructor
  · rw [heldCode]
    cases hdown : stillDown none (events.filter fun e => e.pKey = event.pKey) with
    | none =>
      rw [hdown] at hlast
      rw [if_pos hlast.1]
      rfl
    | some l =>
      rw [hdown] at hlast
      obtain ⟨hpress, rfl, -⟩ := hlast
      rw [hpress]
      rfl
  · rw [heldCode, List.filter_append, hown, stillDown_append]
    show ((if event.press then some event.lKey else none).map definition).filter _ = _
    split <;> rfl

/-- **Step**: a press adds its code, a release takes it away, a special key does neither. -/
theorem heldCodes_event (definition : LogicalKeycode → HidKeycode)
    (h : Balanced (events ++ [event])) :
    let before := heldCodes definition events
    let after := heldCodes definition (events ++ [event])
    (definition event.lKey < specialHidKeysStart →
      if event.press then after.Perm (definition event.lKey :: before)
      else before.Perm (definition event.lKey :: after)) ∧
    (¬ definition event.lKey < specialHidKeysStart → after = before) := by
  obtain ⟨hbefore, hafter⟩ := heldCode_event definition h
  have hmem : event.pKey ∈ List.finRange 256 := List.mem_finRange _
  constructor
  · intro hcode
    have hsome : (some (definition event.lKey)).filter (fun c => c < specialHidKeysStart)
        = some (definition event.lKey) := Option.filter_eq_some_iff.mpr ⟨rfl, by simpa using hcode⟩
    rw [hsome] at hbefore hafter
    split
    · next hpress =>
      rw [hpress] at hbefore hafter
      exact filterMap_gain (fun q hq => heldCode_of_ne hq) hbefore hafter (List.nodup_finRange 256)
        hmem
    · next hpress =>
      rw [Bool.eq_false_iff.mpr hpress] at hbefore hafter
      exact filterMap_gain (fun q hq => (heldCode_of_ne hq).symm) hafter hbefore
        (List.nodup_finRange 256) hmem
  · intro hcode
    have hnone : (some (definition event.lKey)).filter (fun c => c < specialHidKeysStart) = none := by
      rw [Option.filter_some, if_neg (by simpa using hcode)]
    rw [hnone] at hbefore hafter
    refine List.filterMap_congr fun q _ => ?_
    by_cases hq : q = event.pKey
    · subst hq
      rw [hbefore, hafter]
    · exact heldCode_of_ne hq

theorem heldCodes_lt {c : HidKeycode} (h : c ∈ heldCodes definition events) :
    c < specialHidKeysStart := by
  obtain ⟨p, -, hp⟩ := List.mem_filterMap.mp h
  simpa using (Option.filter_eq_some_iff.mp hp).2

/-! ## Playback follows the keys -/

/-- The extra report after toggling the codes. -/
def toggled (r : ExtraKeyboardReport) (codes : List HidKeycode) : ExtraKeyboardReport :=
  codes.foldl (fun r c => r.toggle (hidByte c)) r

theorem recordedCodes_snoc :
    recordedCodes definition (events ++ [event]) = recordedCodes definition events ++
      if definition event.lKey < specialHidKeysStart then [definition event.lKey] else [] := by
  rw [recordedCodes, List.map_append, List.filter_append, recordedCodes]
  congr 1
  split
  · next hcode => exact List.filter_cons_of_pos (by simpa using hcode)
  · next hcode => exact List.filter_cons_of_neg (by simpa using hcode)

/-- **The report follows the keys**: toggling the recorded codes shows the codes that are held. -/
theorem shows_toggled (definition : LogicalKeycode → HidKeycode) :
    ∀ (events : List KeyEvent), Balanced events →
    (∀ n, HeldApart definition (events.take n)) →
    Shows (toggled .clear (recordedCodes definition events)) (heldCodes definition events) := by
  intro events
  induction events using List.reverseRecOn with
  | nil =>
    intro _ _
    have hnil : heldCodes definition [] = [] := by
      rw [heldCodes, List.filterMap_eq_nil_iff]
      exact fun _ _ => rfl
    rw [hnil]
    exact shows_clear
  | append_singleton events event ih =>
    intro hbal hapart
    have hshows := ih hbal.left fun n => by
      have := hapart (min n events.length)
      rwa [List.take_append_of_le_length (Nat.min_le_right _ _), ← List.take_take,
        List.take_length] at this
    obtain ⟨hcode, hspecial⟩ := heldCodes_event definition hbal
    have hnow := hapart (events ++ [event]).length
    rw [List.take_length] at hnow
    have hbefore := hapart events.length
    rw [List.take_left] at hbefore
    rw [recordedCodes_snoc]
    by_cases hlt : definition event.lKey < specialHidKeysStart
    · rw [if_pos hlt, toggled, List.foldl_append]
      have hperm := hcode hlt
      split at hperm
      · have hnodup := hperm.nodup_iff.mp hnow.1
        have hplaced : (placed (heldCodes definition (events ++ [event]))).length =
            (placed (definition event.lKey :: heldCodes definition events)).length :=
          (hperm.filter _).length_eq
        refine (Shows.press hshows (List.nodup_cons.mp hnodup).1 ?_).perm hperm.symm
        rw [← hplaced]
        exact hnow.2
      · have hnodup := hperm.nodup_iff.mp hbefore.1
        exact (hshows.perm hperm).release (List.nodup_cons.mp hnodup).1
    · rw [if_neg hlt, List.append_nil, hspecial hlt]
      exact hshows

/-- One call during playback, with the codes still to be played in the storage. -/
theorem macrosFillNextReport_cons {mem : Storage} {ps : PlaybackState} {c : HidKeycode}
    {codes : List HidKeycode} (hholds : Holds mem ps.cursor (c :: codes))
    (hremaining : ps.remaining.val = codes.length + 1) (report : KeyboardReport) :
    macrosFillNextReport mem ps report =
      (decide (codes ≠ []),
        ⟨ps.remaining - 1, ps.cursor + 1, ps.report.toggle (hidByte c)⟩,
        (ps.report.toggle (hidByte c)).append report) ∧
      (ps.remaining - 1).val = codes.length := by
  obtain ⟨hevent, -⟩ := holds_cons.mp hholds
  have hne : ps.remaining ≠ 0 := by
    intro hzero
    rw [hzero] at hremaining
    exact absurd hremaining (Nat.succ_ne_zero _).symm
  have hval : (ps.remaining - 1).val = codes.length := by
    rw [Fin.sub_val_of_le (by rw [Fin.le_def, hremaining]; exact Nat.succ_le_succ (Nat.zero_le _)),
      hremaining]
    rfl
  have hmore : ps.remaining - 1 ≠ 0 ↔ codes ≠ [] := by
    rw [ne_eq, Fin.ext_iff, hval, ne_eq, ← List.length_eq_zero_iff]
    rfl
  refine ⟨?_, hval⟩
  rw [macrosFillNextReport, if_pos hne, hevent]
  simp only [hmore]

/-- **Playback**: one report a code, each showing what toggling the codes so far has led to. -/
theorem playReports_spec (mem : Storage) : ∀ (codes : List HidKeycode) (calls : Nat)
    (ps : PlaybackState), Holds mem ps.cursor codes → ps.remaining.val = codes.length →
    codes ≠ [] → codes.length ≤ calls →
    (playReports mem calls ps).length = codes.length ∧
      ∀ k < codes.length, (playReports mem calls ps)[k]? =
        some ((toggled ps.report (codes.take (k + 1))).append emptyReport) := by
  intro codes
  induction codes with
  | nil => exact fun _ _ _ _ hne _ => absurd rfl hne
  | cons c codes ih =>
    intro calls ps hholds hremaining _ hcalls
    obtain ⟨calls, rfl⟩ : ∃ m, calls = m + 1 := ⟨calls - 1, by simp at hcalls; omega⟩
    obtain ⟨hcall, hnext⟩ := macrosFillNextReport_cons hholds hremaining emptyReport
    obtain ⟨-, hrest⟩ := holds_cons.mp hholds
    rw [playReports, hcall]
    by_cases hnil : codes = []
    · subst hnil
      refine ⟨rfl, fun k hk => ?_⟩
      obtain rfl : k = 0 := Nat.lt_one_iff.mp hk
      rfl
    · obtain ⟨hlen, hat⟩ := ih calls ⟨ps.remaining - 1, ps.cursor + 1, ps.report.toggle (hidByte c)⟩
        hrest hnext hnil (by simpa using hcalls)
      simp only [hnil, ne_eq, not_false_eq_true, decide_true, if_true]
      refine ⟨by rw [List.length_cons, hlen, List.length_cons], fun k hk => ?_⟩
      cases k with
      | zero => rfl
      | succ k => exact hat k (by simpa using hk)

/-! ## From the first event to the last report -/

/-- Every write of one byte succeeds, so the hook never aborts. -/
theorem macrosAppendOk_eq (st : MacroStore) (c : HidKeycode) : macrosAppendOk st c = true := by
  rw [macrosAppendOk]
  split <;> rfl

theorem hook_events (hw : Hardware) (definition : LogicalKeycode → HidKeycode) :
    ∀ (events : List KeyEvent) (st : MacroStore),
      events.foldl (macroRecordHook hw definition false) st =
        (recordedCodes definition events).foldl macrosAppend st := by
  intro events
  induction events with
  | nil => exact fun _ => rfl
  | cons event events ih =>
    intro st
    rw [List.foldl_cons, ih]
    by_cases hlt : definition event.lKey < specialHidKeysStart
    · have hcodes : recordedCodes definition (event :: events) =
          definition event.lKey :: recordedCodes definition events :=
        List.filter_cons_of_pos (by simpa using hlt)
      have hstep : macroRecordHook hw definition false st event =
          macrosAppend st (definition event.lKey) := by
        simp only [macroRecordHook, Bool.false_eq_true, if_false, macrosAppendOk_eq, if_true]
        exact if_neg (Fin.not_le.mpr hlt)
      rw [hstep, hcodes, List.foldl_cons]
    · have hcodes : recordedCodes definition (event :: events) = recordedCodes definition events :=
        List.filter_cons_of_neg (by simpa using hlt)
      have hstep : macroRecordHook hw definition false st event = st := by
        simp only [macroRecordHook, Bool.false_eq_true, if_false]
        exact if_pos (Fin.not_lt.mp hlt)
      rw [hstep, hcodes]

/-- The recording of the events, from the start to the commit. -/
def recordAndCommit (hw : Hardware) (definition : LogicalKeycode → HidKeycode) (st : MacroStore)
    (trigger : KeyBuffer) (events : List KeyEvent) : MacroStore :=
  macrosCommitMacro hw
    (events.foldl (macroRecordHook hw definition false) (macrosStartMacro hw st trigger.key).2)

/-- Playing the recording back gives one report for each recorded event, which carries exactly the
    codes held after that event. -/
def Reproduces (hw : Hardware) (definition : LogicalKeycode → HidKeycode) (st : MacroStore)
    (trigger : KeyBuffer) (events : List KeyEvent) : Prop :=
  ∃ reports, playTrigger hw (recordAndCommit hw definition st trigger events) trigger.key =
      some reports ∧
    reports.length = (recordedCodes definition events).length ∧
    ∀ n (hn : n < events.length), definition events[n].lKey < specialHidKeysStart →
      ∃ report, reports[(recordedCodes definition (events.take n)).length]? = some report ∧
        ∀ c, report.Carries c ↔ c ≠ 0 ∧ c ∈ heldCodes definition (events.take (n + 1))

theorem playTrigger_of_contents {st : MacroStore} {key : MacroIdxKey} {codes : List HidKeycode}
    (h : triggerContents hw st key = some (.events codes)) :
    ∃ offset : Fin 65536, playTrigger hw st key =
        some (playReports st.mem 65536 (macrosStartPlayback st.mem offset)) ∧
      macroEvents st.mem offset = codes := by
  rw [triggerContents, Option.map_eq_some_iff] at h
  obtain ⟨entry, hentry, hcontents⟩ := h
  rw [playTrigger, hentry]
  cases htype : (macroIdxGetData st.index entry).type with
  | programEntry =>
    simp only [htype] at hcontents
    cases hcontents
  | macroEntry =>
    simp only [htype, TriggerContents.events.injEq] at hcontents
    refine ⟨(macroIdxGetData st.index entry).data, ?_, hcontents⟩
    dsimp only [Option.bind]
    rw [htype]

/-- **Playback reproduces the recording.**  Whatever is typed from a moment with no key held until
    the commit, by keys that go down and up in turn: if the recording starts and fits the area, and
    at every moment the held keys have different codes of which at most six are not modifiers, then
    the reports of the playback carry, event by event, exactly the codes that were held. -/
theorem playback_reproduces_recording (hw : Hardware) (definition : LogicalKeycode → HidKeycode)
    (st : MacroStore) (hok : StoreOk hw st) (trigger : KeyBuffer) (events : List KeyEvent)
    (hstart : (macrosStartMacro hw st trigger.key).1 = true)
    (hroom : Recording.HasRoom hw st ⟨trigger, recordedCodes definition events, true⟩)
    (hsome : recordedCodes definition events ≠ [])
    (hbal : Balanced events) (hapart : ∀ n, HeldApart definition (events.take n)) :
    Reproduces hw definition st trigger events := by
  obtain ⟨codes, hcodes⟩ : ∃ codes, recordedCodes definition events = codes := ⟨_, rfl⟩
  rw [hcodes] at hroom hsome
  -- the commit leaves the codes behind the trigger
  obtain ⟨n, recs, hinv, -⟩ := hok
  obtain ⟨-, -, -, -, hcontents⟩ := Recording.run_spec hinv ⟨trigger, codes, true⟩
    (Recording.hasRoom_iff.mp hroom)
  have hrun : (⟨trigger, codes, true⟩ : Recording).run hw st =
      recordAndCommit hw definition st trigger events := by
    rw [recordAndCommit, hook_events, hcodes, Recording.run]
    cases hs : macrosStartMacro hw st trigger.key with
    | mk started st₁ =>
      rw [hs] at hstart
      obtain rfl : started = true := hstart
      simp only [Recording.finish, if_true]
  have hcontents := hcontents hstart
  rw [hrun, Recording.contents, if_pos ⟨rfl, hsome⟩] at hcontents
  obtain ⟨offset, hplay, hevents⟩ := playTrigger_of_contents hcontents
  obtain ⟨mem, hmem⟩ : ∃ mem, (recordAndCommit hw definition st trigger events).mem = mem := ⟨_, rfl⟩
  rw [hmem] at hplay hevents
  have hevents : macroEvents mem offset = codes := hevents
  have hholds : Holds mem (macrosStartPlayback mem offset).cursor codes := by
    rw [← hevents]
    exact holds_readBytes _ _ _
  have hlen : (macrosStartPlayback mem offset).remaining.val = codes.length := by
    rw [← hevents, macroEvents, readBytes_length]
    rfl
  obtain ⟨hcount, hreports⟩ := playReports_spec mem codes 65536 _ hholds hlen hsome
    (by rw [← hlen]; exact Fin.is_le' )
  refine ⟨_, hplay, ?_, fun k hk hcode => ?_⟩
  · rw [hcount, hcodes]
  · -- the events up to this one are what the report has been toggled by
    have hsplit : events.take (k + 1) = events.take k ++ [events[k]] :=
      List.take_succ_eq_append_getElem hk
    have hupto : recordedCodes definition (events.take (k + 1)) =
        recordedCodes definition (events.take k) ++ [definition events[k].lKey] := by
      rw [hsplit, recordedCodes_snoc, if_pos hcode]
    have happ : recordedCodes definition (events.take (k + 1)) ++
        recordedCodes definition (events.drop (k + 1)) = codes := by
      rw [← hcodes, recordedCodes, recordedCodes, recordedCodes, ← List.filter_append,
        ← List.map_append, List.take_append_drop]
    have hpos : (recordedCodes definition (events.take k)).length + 1 =
        (recordedCodes definition (events.take (k + 1))).length := by
      rw [hupto, List.length_append, List.length_singleton]
    have htake : codes.take ((recordedCodes definition (events.take k)).length + 1) =
        recordedCodes definition (events.take (k + 1)) := by
      rw [← happ, hpos, List.take_left]
    have hlt : (recordedCodes definition (events.take k)).length < codes.length := by
      rw [← happ, List.length_append]
      omega
    have hreport := hreports _ hlt
    rw [htake] at hreport
    have hshows := shows_toggled definition (events.take (k + 1))
      (Balanced.left (by rwa [List.take_append_drop])) fun m => by
        rw [List.take_take]
        exact hapart _
    exact ⟨_, hreport, hshows.carries fun d hd => heldCodes_lt hd⟩

/-! ## What cannot be reproduced -/

instance decidableAlternates : ∀ (down : Option LogicalKeycode) (events : List KeyEvent),
    Decidable (Alternates down events)
  | _, [] => isTrue trivial
  | none, event :: events =>
    haveI := decidableAlternates (some event.lKey) events
    inferInstanceAs (Decidable (_ ∧ _))
  | some _, _ :: events =>
    haveI := decidableAlternates none events
    inferInstanceAs (Decidable (_ ∧ _ ∧ _))

instance (events : List KeyEvent) : Decidable (Balanced events) :=
  inferInstanceAs (Decidable (∀ _, _))

instance (definition : LogicalKeycode → HidKeycode) (events : List KeyEvent) :
    Decidable (HeldApart definition events) := inferInstanceAs (Decidable (_ ∧ _))

instance (report : KeyboardReport) (c : HidKeycode) : Decidable (report.Carries c) :=
  inferInstanceAs (Decidable (if leftControl ≤ c then
    report.modifier.getLsbD (c.val - leftControl.val) = true else c ≠ 0 ∧ hidByte c ∈ report.keyCode))

/-- The presses of some keys, in the base layer. -/
def presses (keys : List LogicalKeycode) : List KeyEvent := keys.map fun p => ⟨p, p, true⟩

/-- The releases of some keys, in the base layer. -/
def releases (keys : List LogicalKeycode) : List KeyEvent := keys.map fun p => ⟨p, p, false⟩

/-- Left shift, on key 10, goes down and up around the letters on keys 4 and 5. -/
theorem playback_reproduces_shifted_letters :
    Reproduces k80cs (fun l => if l = 10 then 0xE1 else l) (blankStore.reset k80cs)
      (repeatRecording 1).trigger
      (presses [10, 4] ++ releases [4] ++ presses [5] ++ releases [10, 5]) :=
  playback_reproduces_recording k80cs _ _ (blankStore_ok k80cs) _ _ (by decide +kernel)
    (Or.inr (Or.inr (by decide +kernel))) (by decide +kernel) (by decide +kernel) fun n =>
      (by decide +kernel : ∀ events ∈ (presses [10, 4] ++ releases [4] ++ presses [5] ++
        releases [10, 5]).inits, HeldApart (fun l => if l = 10 then 0xE1 else l) events) _
        ((List.mem_inits _ _).mpr (List.take_prefix n _))

/-- A playback that leaves out a code that was held. -/
theorem not_reproduces {st : MacroStore} {trigger : KeyBuffer} {c : HidKeycode} {n : Nat}
    (hn : n < events.length) (hcode : definition events[n].lKey < specialHidKeysStart)
    (hc : c ≠ 0 ∧ c ∈ heldCodes definition (events.take (n + 1)))
    (hplay : ((playTrigger hw (recordAndCommit hw definition st trigger events) trigger.key).bind
      fun reports => reports[(recordedCodes definition (events.take n)).length]?).map
        (fun report => decide (report.Carries c)) = some false) :
    ¬ Reproduces hw definition st trigger events := by
  rintro ⟨reports, hreports, -, hcarries⟩
  obtain ⟨report, hreport, hiff⟩ := hcarries n hn hcode
  rw [hreports, Option.bind_some, hreport, Option.map_some, Option.some.injEq,
    decide_eq_false_iff_not] at hplay
  exact hplay ((hiff c).mpr hc)

/-- Seven keys held at once: the extra report has no place for the last of them.  Two keys with one
    code: the press of the second takes the code away. -/
theorem playback_drops_held_codes :
    (Balanced (presses [4, 5, 6, 7, 8, 9, 10]) ∧
      ¬ Reproduces k80cs (fun l => l) (blankStore.reset k80cs) (repeatRecording 1).trigger
        (presses [4, 5, 6, 7, 8, 9, 10])) ∧
    (Balanced (presses [4, 5]) ∧
      ¬ Reproduces k80cs (fun _ => 4) (blankStore.reset k80cs) (repeatRecording 1).trigger
        (presses [4, 5])) :=
  ⟨⟨by decide +kernel, not_reproduces (n := 6) (c := 10) (by decide) (by decide)
      (by decide +kernel) (by decide +kernel)⟩,
    ⟨by decide +kernel, not_reproduces (n := 1) (c := 4) (by decide) (by decide)
      (by decide +kernel) (by decide +kernel)⟩⟩

end KeyboardFirmware
