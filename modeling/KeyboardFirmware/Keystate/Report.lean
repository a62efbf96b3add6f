/-
  `keystate_Fill_KeyboardReport`: the held keys as the report that is sent.

  The loop looks whether the report is full before it looks what the next key is, so a modifier or a
  special key behind the sixth normal key counts as a seventh.  The report is right exactly if nothing
  stands there that the report would miss or that makes it a rollover (`fillReport_right_iff`).
-/
import KeyboardFirmware.Keystate.Table
import KeyboardFirmware.Macro.ExtraReport

namespace KeyboardFirmware

open Compiler (Word8)

/-- `HID_KEYBOARD_SC_ERROR_ROLLOVER`. -/
def errorRollover : HidKeycode := 0x01

/-- What the loop writes to: the report, and its two variables. -/
structure Filling where
  report : KeyboardReport
  usedKeyCodes : Nat
  rollover : Bool

/-- The loop of `keystate_Fill_KeyboardReport`, over the slots that are left. -/
def fillLoop (hw : KeystateHardware) (definition : LogicalKeycode → HidKeycode) (layer : Layer) :
    List KeyState → Filling → Filling
  | [], f => f
  | key :: slots, f =>
    if key.state && !key.hidden then
      if f.usedKeyCodes = keyboardReportKeyCount then { f with rollover := true }
      else
        let hKey := extractKeycode hw definition layer key .hid
        -- program key combinations never cause typing
        let f := if hKey = programKey then { f with rollover := true } else f
        if specialHidKeysStart ≤ hKey then fillLoop hw definition layer slots f
        else if leftControl ≤ hKey then
          fillLoop hw definition layer slots { f with report :=
            { f.report with modifier := f.report.modifier ||| (1 : Word8) <<< (hKey.val - leftControl.val) } }
        else
          fillLoop hw definition layer slots { f with
            report := { f.report with keyCode := f.report.keyCode.set f.usedKeyCodes (hidByte hKey) }
            usedKeyCodes := f.usedKeyCodes + 1 }
    else fillLoop hw definition layer slots f

/-- `keystate_Fill_KeyboardReport`. -/
def keystateFillKeyboardReport (hw : KeystateHardware) (definition : LogicalKeycode → HidKeycode)
    (ks : Keystate) (report : KeyboardReport) : KeyboardReport :=
  let f := fillLoop hw definition ks.layer ks.keyStates ⟨report, 0, false⟩
  if f.rollover then
    { f.report with keyCode := List.replicate keyboardReportKeyCount (hidByte errorRollover) }
  else f.report

/-! ## What the report should be -/

/-- A modifier. -/
def isModifier (c : HidKeycode) : Bool := leftControl ≤ c && c < specialHidKeysStart

/-- A key that takes a place of the report. -/
def isNormal (c : HidKeycode) : Bool := c < leftControl

/-- The codes of the visible held keys, in the order of the slots. -/
def visibleCodes (hw : KeystateHardware) (definition : LogicalKeycode → HidKeycode) (ks : Keystate) :
    List HidKeycode :=
  (ks.keyStates.filter fun key => key.state && !key.hidden).map fun key =>
    extractKeycode hw definition ks.layer key .hid

/-- All six places are the rollover error. -/
def KeyboardReport.Rollover (report : KeyboardReport) : Prop :=
  report.keyCode = List.replicate keyboardReportKeyCount (hidByte errorRollover)

/-- The report says what is held. -/
structure ReportRight (codes : List HidKeycode) (report : KeyboardReport) : Prop where
  /-- the bits are those of the modifiers -/
  modifiers : ∀ i : Nat, report.modifier.getLsbD i = true ↔
    ∃ c ∈ codes, isModifier c = true ∧ c.val = leftControl.val + i
  /-- up to six normal keys have a place each -/
  listed : programKey ∉ codes → (codes.filter isNormal).length ≤ keyboardReportKeyCount →
    report.keyCode = (codes.filter isNormal).map hidByte ++
      List.replicate (keyboardReportKeyCount - (codes.filter isNormal).length) 0
  /-- more of them, or the program key, are a rollover, and nothing else is -/
  rollover : report.Rollover ↔
    programKey ∈ codes ∨ keyboardReportKeyCount < (codes.filter isNormal).length

/-- The codes up to the one that takes the last of `room` places, and those behind it. -/
def splitFull : Nat → List HidKeycode → List HidKeycode × List HidKeycode
  | _, [] => ([], [])
  | 0, c :: codes => ([], c :: codes)
  | room + 1, c :: codes =>
    let rest := splitFull (if isNormal c then room else room + 1) codes
    (c :: rest.1, rest.2)

/-- Nothing is missed when the loop ends early: what stands behind the sixth normal key is no new
    modifier, and if there is anything, there is a seventh normal key. -/
structure Reportable (codes : List HidKeycode) : Prop where
  modifiers : ∀ c ∈ (splitFull keyboardReportKeyCount codes).2, isModifier c = true →
    c ∈ (splitFull keyboardReportKeyCount codes).1
  full : programKey ∉ codes → (splitFull keyboardReportKeyCount codes).2 ≠ [] →
    keyboardReportKeyCount < (codes.filter isNormal).length
  /-- no six keys are mapped to the code of the rollover error itself -/
  errors : programKey ∉ codes →
    codes.filter isNormal ≠ List.replicate keyboardReportKeyCount errorRollover

/-! ## The loop -/

variable {hw : KeystateHardware} {definition : LogicalKeycode → HidKeycode} {layer : Layer}

/-- The loop, over the codes alone. -/
def fillCodes : List HidKeycode → Filling → Filling
  | [], f => f
  | c :: codes, f =>
    if f.usedKeyCodes = keyboardReportKeyCount then { f with rollover := true }
    else
      let f := if c = programKey then { f with rollover := true } else f
      if specialHidKeysStart ≤ c then fillCodes codes f
      else if leftControl ≤ c then
        fillCodes codes { f with report :=
          { f.report with modifier := f.report.modifier ||| (1 : Word8) <<< (c.val - leftControl.val) } }
      else
        fillCodes codes { f with
          report := { f.report with keyCode := f.report.keyCode.set f.usedKeyCodes (hidByte c) }
          usedKeyCodes := f.usedKeyCodes + 1 }

theorem fillLoop_eq : ∀ (slots : List KeyState) (f : Filling), fillLoop hw definition layer slots f =
    fillCodes ((slots.filter fun key => key.state && !key.hidden).map fun key =>
      extractKeycode hw definition layer key .hid) f
  | [], f => rfl
  | key :: slots, f => by
    rw [fillLoop, List.filter_cons]
    split
    · rw [List.map_cons, fillCodes]
      simp only [fillLoop_eq slots]
    · exact fillLoop_eq slots f

theorem splitFull_append : ∀ (room : Nat) (codes : List HidKeycode),
    (splitFull room codes).1 ++ (splitFull room codes).2 = codes
  | _, [] => by simp [splitFull]
  | 0, _ :: _ => rfl
  | room + 1, c :: codes => congrArg (c :: ·) (splitFull_append _ codes)

/-- No more than `room` places are taken, and all of them when something is left. -/
theorem splitFull_room : ∀ (room : Nat) (codes : List HidKeycode),
    ((splitFull room codes).1.filter isNormal).length ≤ room ∧
      ((splitFull room codes).2 ≠ [] → ((splitFull room codes).1.filter isNormal).length = room)
  | _, [] => by simp [splitFull]
  | 0, _ :: _ => ⟨Nat.le_refl 0, fun _ => rfl⟩
  | room + 1, c :: codes => by
    obtain ⟨hle, heq⟩ := splitFull_room (if isNormal c then room else room + 1) codes
    rw [splitFull]
    cases hc : isNormal c with
    | true =>
      rw [hc, if_pos rfl] at hle heq
      rw [if_pos rfl, List.filter_cons_of_pos hc, List.length_cons]
      exact ⟨Nat.succ_le_succ hle, fun h => congrArg (· + 1) (heq h)⟩
    | false =>
      rw [hc, if_neg Bool.false_ne_true] at hle heq
      rw [if_neg Bool.false_ne_true, List.filter_cons_of_neg (by rw [hc]; exact Bool.false_ne_true)]
      exact ⟨hle, heq⟩

/-- A modifier sets its own bit. -/
theorem modifier_bit {modifier : Word8} {c : HidKeycode} (h : isModifier c = true) (i : Nat) :
    (modifier ||| (1 : Word8) <<< (c.val - leftControl.val)).getLsbD i = true ↔
      modifier.getLsbD i = true ∨ c.val = leftControl.val + i := by
  have hval : (leftControl : HidKeycode).val = 224 := rfl
  obtain ⟨hc, hc'⟩ : 224 ≤ c.val ∧ c.val < 232 := by
    unfold isModifier at h
    rw [Bool.and_eq_true, decide_eq_true_eq, decide_eq_true_eq] at h
    exact h
  have hbit : ((1 : Word8) <<< (c.val - 224)).getLsbD i = true ↔ c.val = 224 + i := by
    rw [BitVec.getLsbD_shiftLeft, show (1 : Word8) = 1#8 from rfl]
    simp only [BitVec.getLsbD_one, Bool.and_eq_true, decide_eq_true_eq, Bool.not_eq_true',
      decide_eq_false_iff_not]
    omega
  rw [BitVec.getLsbD_or, Bool.or_eq_true, hval, hbit]

/-- A code at the place behind those in use. -/
theorem set_behind (used : List HidKeycode) (c : HidKeycode) (room : Nat) :
    (used.map hidByte ++ List.replicate (room + 1) 0).set used.length (hidByte c) =
      (used ++ [c]).map hidByte ++ List.replicate room 0 := by
  rw [List.set_append_right _ _ (by rw [List.length_map]), List.length_map, Nat.sub_self,
    List.replicate_succ, List.set_cons_zero, List.map_append, List.append_assoc]
  rfl

/-- What the loop has made of a report in which `used` have their places, with the codes it has seen
    and those it has not. -/
structure Filled (f f' : Filling) (used : List HidKeycode) (split : List HidKeycode × List HidKeycode) :
    Prop where
  modifiers : ∀ i : Nat, f'.report.modifier.getLsbD i = true ↔ f.report.modifier.getLsbD i = true ∨
    ∃ c ∈ split.1, isModifier c = true ∧ c.val = leftControl.val + i
  keyCode : f'.report.keyCode = (used ++ split.1.filter isNormal).map hidByte ++
    List.replicate (keyboardReportKeyCount - (used ++ split.1.filter isNormal).length) 0
  rollover : f'.rollover = true ↔ f.rollover = true ∨ programKey ∈ split.1 ∨ split.2 ≠ []

theorem fillCodes_filled : ∀ (codes used : List HidKeycode) (room : Nat) (f : Filling),
    used.length + room = keyboardReportKeyCount → f.usedKeyCodes = used.length →
    f.report.keyCode = used.map hidByte ++ List.replicate room 0 →
    Filled f (fillCodes codes f) used (splitFull room codes)
  | [], used, room, f, hroom, hused, hkeys => by
    have hfree : keyboardReportKeyCount - used.length = room := by omega
    refine ⟨fun i => ?_, ?_, ?_⟩
    · simp [fillCodes, splitFull]
    · simpa [fillCodes, splitFull, hfree] using hkeys
    · simp [fillCodes, splitFull]
  | c :: codes, used, 0, f, hroom, hused, hkeys => by
    have hfull : f.usedKeyCodes = keyboardReportKeyCount := by omega
    have hlen : used.length = keyboardReportKeyCount := by omega
    rw [fillCodes, if_pos hfull]
    refine ⟨fun i => ?_, ?_, ?_⟩
    · simp [splitFull]
    · simpa [splitFull, hlen] using hkeys
    · simp [splitFull]
  | c :: codes, used, room + 1, f, hroom, hused, hkeys => by
    have hfree : f.usedKeyCodes ≠ keyboardReportKeyCount := by omega
    rw [fillCodes, if_neg hfree, splitFull]
    -- the program key is only noted here
    have hnoted : ∀ f1 : Filling, f1 = (if c = programKey then { f with rollover := true } else f) →
        f1.report = f.report ∧ f1.usedKeyCodes = f.usedKeyCodes ∧
          (f1.rollover = true ↔ f.rollover = true ∨ c = programKey) := by
      rintro f1 rfl
      split
      · next hc => exact ⟨rfl, rfl, by simp [hc]⟩
      · next hc => exact ⟨rfl, rfl, by simp [hc]⟩
    obtain ⟨f1, hf1⟩ : ∃ f1, f1 = (if c = programKey then { f with rollover := true } else f) := ⟨_, rfl⟩
    obtain ⟨hreport, hcount, hroll⟩ := hnoted f1 hf1
    dsimp only
    rw [← hf1]
    by_cases hspecial : specialHidKeysStart ≤ c
    · have hlc : leftControl ≤ c := Fin.le_trans (by decide) hspecial
      have hnormal : isNormal c = false := by simpa [isNormal] using hlc
      have hmod : isModifier c = false := by simpa [isModifier] using fun _ => hspecial
      rw [if_pos hspecial, hnormal, if_neg Bool.false_ne_true]
      obtain ⟨hm, hk, hr⟩ := fillCodes_filled codes used (room + 1) f1 hroom (hcount.trans hused)
        (by rw [hreport, hkeys])
      refine ⟨fun i => ?_, ?_, ?_⟩
      · rw [hm, hreport]
        simp [hmod]
      · rw [hk, List.filter_cons_of_neg (by simp [hnormal])]
      · rw [hr, hroll, List.mem_cons, eq_comm]
        tauto
    · rw [if_neg hspecial]
      have hprogram : c ≠ programKey := by
        rintro rfl
        exact hspecial (by decide)
      obtain rfl : f1 = f := by rw [hf1, if_neg hprogram]
      by_cases hlc : leftControl ≤ c
      · have hnormal : isNormal c = false := by simpa [isNormal] using hlc
        have hmod : isModifier c = true := by simpa [isModifier] using ⟨hlc, Fin.not_le.mp hspecial⟩
        rw [if_pos hlc, hnormal, if_neg Bool.false_ne_true]
        obtain ⟨hm, hk, hr⟩ := fillCodes_filled codes used (room + 1) { f1 with report := { f1.report with
          modifier := f1.report.modifier ||| (1 : Word8) <<< (c.val - leftControl.val) } } hroom hused hkeys
        refine ⟨fun i => ?_, ?_, ?_⟩
        · rw [hm, modifier_bit hmod]
          simp [hmod, or_assoc]
        · rw [hk, List.filter_cons_of_neg (by simp [hnormal])]
        · rw [hr, List.mem_cons]
          simp [hprogram.symm]
      · have hnormal : isNormal c = true := by simpa [isNormal] using hlc
        have hmod : isModifier c = false := by simpa [isModifier] using fun h => absurd h hlc
        rw [if_neg hlc, hnormal, if_pos rfl]
        obtain ⟨hm, hk, hr⟩ := fillCodes_filled codes (used ++ [c]) room { f1 with
            report := { f1.report with keyCode := f1.report.keyCode.set f1.usedKeyCodes (hidByte c) }
            usedKeyCodes := f1.usedKeyCodes + 1 }
          (by rw [List.length_append, List.length_singleton]; omega)
          (by rw [List.length_append, List.length_singleton]; exact congrArg (· + 1) hused)
          (by rw [hused, hkeys]; exact set_behind used c room)
        refine ⟨fun i => ?_, ?_, ?_⟩
        · rw [hm]
          simp [hmod]
        · rw [hk, List.filter_cons_of_pos hnormal, List.append_assoc used [c]]
          rfl
        · rw [hr, List.mem_cons]
          simp [hprogram.symm]

/-! ## The report -/

/-- The report that is made of the codes. -/
def reportOf (codes : List HidKeycode) : KeyboardReport :=
  let f := fillCodes codes ⟨emptyReport, 0, false⟩
  if f.rollover then
    { f.report with keyCode := List.replicate keyboardReportKeyCount (hidByte errorRollover) }
  else f.report

theorem keystateFillKeyboardReport_eq (ks : Keystate) :
    keystateFillKeyboardReport hw definition ks emptyReport =
      reportOf (visibleCodes hw definition ks) := by
  rw [keystateFillKeyboardReport, fillLoop_eq]
  rfl

/-- Six places are all the rollover error only if six keys have that code. -/
theorem map_eq_rollover {normals : List HidKeycode} (hle : normals.length ≤ keyboardReportKeyCount) :
    normals.map hidByte ++ List.replicate (keyboardReportKeyCount - normals.length) 0 =
      List.replicate keyboardReportKeyCount (hidByte errorRollover) ↔
    normals = List.replicate keyboardReportKeyCount errorRollover := by
  constructor
  · intro h
    have hall := List.eq_replicate_iff.mp h
    have hcodes : ∀ c ∈ normals, c = errorRollover := fun c hc =>
      hidByte_inj.mp (hall.2 _ (List.mem_append_left _ (List.mem_map_of_mem hc)))
    have hfull : keyboardReportKeyCount - normals.length = 0 := by
      by_contra hne
      have hzero := hall.2 0 (List.mem_append_right _ (List.mem_replicate.mpr ⟨hne, rfl⟩))
      exact absurd hzero (by decide)
    exact List.eq_replicate_iff.mpr ⟨by omega, hcodes⟩
  · rintro rfl
    rw [List.length_replicate, Nat.sub_self, List.map_replicate]
    exact List.append_nil _

/-- The bits of the report are right exactly if no new modifier stands behind. -/
theorem modifiers_right_iff {codes seen behind : List HidKeycode} (hsplit : seen ++ behind = codes)
    {modifier : Word8} (hbits : ∀ i : Nat, modifier.getLsbD i = true ↔
      ∃ c ∈ seen, isModifier c = true ∧ c.val = leftControl.val + i) :
    (∀ i : Nat, modifier.getLsbD i = true ↔
      ∃ c ∈ codes, isModifier c = true ∧ c.val = leftControl.val + i) ↔
    ∀ c ∈ behind, isModifier c = true → c ∈ seen := by
  subst hsplit
  constructor
  · intro h c hc hmod
    have hle : leftControl.val ≤ c.val := (of_decide_eq_true (Bool.and_eq_true_iff.mp hmod).1)
    have hbit := (h (c.val - leftControl.val)).mpr ⟨c, List.mem_append_right _ hc, hmod, by omega⟩
    obtain ⟨d, hd, -, hval⟩ := (hbits _).mp hbit
    obtain rfl : d = c := Fin.ext (by omega)
    exact hd
  · intro h i
    rw [hbits i]
    constructor
    · rintro ⟨c, hc, hrest⟩
      exact ⟨c, List.mem_append_left _ hc, hrest⟩
    · rintro ⟨c, hc, hmod, hval⟩
      rcases List.mem_append.mp hc with hc | hc
      · exact ⟨c, hc, hmod, hval⟩
      · exact ⟨c, h c hc hmod, hmod, hval⟩

theorem reportOf_right_iff (codes : List HidKeycode) :
    ReportRight codes (reportOf codes) ↔ Reportable codes := by
  obtain ⟨hbits, hkeys, hroll⟩ := fillCodes_filled codes [] keyboardReportKeyCount
    ⟨emptyReport, 0, false⟩ (Nat.zero_add _) rfl rfl
  have hsplit := splitFull_append keyboardReportKeyCount codes
  obtain ⟨hle, hfull⟩ := splitFull_room keyboardReportKeyCount codes
  -- the report, whether it is a rollover or not
  have hmodifier : (reportOf codes).modifier =
      (fillCodes codes ⟨emptyReport, 0, false⟩).report.modifier := by
    unfold reportOf
    dsimp only
    split <;> rfl
  have hbits' : ∀ i : Nat, (reportOf codes).modifier.getLsbD i = true ↔
      ∃ c ∈ (splitFull keyboardReportKeyCount codes).1,
        isModifier c = true ∧ c.val = leftControl.val + i := by
    intro i
    rw [hmodifier, hbits]
    simp [emptyReport]
  have hmods := modifiers_right_iff hsplit hbits'
  have hnormals : codes.filter isNormal = (splitFull keyboardReportKeyCount codes).1.filter isNormal ++
      (splitFull keyboardReportKeyCount codes).2.filter isNormal := by
    rw [← List.filter_append, hsplit]
  by_cases hprogram : programKey ∈ codes
  · -- the program key makes a rollover, seen or not
    have hrollover : (reportOf codes).Rollover := by
      have htrue : (fillCodes codes ⟨emptyReport, 0, false⟩).rollover = true := by
        rw [hroll]
        rw [← hsplit, List.mem_append] at hprogram
        exact .inr (hprogram.imp_right List.ne_nil_of_mem)
      unfold reportOf KeyboardReport.Rollover
      rw [if_pos htrue]
    constructor
    · intro h
      exact ⟨hmods.mp h.modifiers, fun hno => absurd hprogram hno, fun hno => absurd hprogram hno⟩
    · intro h
      exact ⟨hmods.mpr h.modifiers, fun hno => absurd hprogram hno,
        iff_of_true hrollover (.inl hprogram)⟩
  · have hseen : programKey ∉ (splitFull keyboardReportKeyCount codes).1 := fun h =>
      hprogram (hsplit ▸ List.mem_append_left _ h)
    by_cases hbehind : (splitFull keyboardReportKeyCount codes).2 = []
    · -- every code has been seen
      have hfalse : ¬(fillCodes codes ⟨emptyReport, 0, false⟩).rollover = true := by
        rw [hroll]
        simp [hseen, hbehind]
      rw [hbehind, List.filter_nil, List.append_nil] at hnormals
      have hcode : (reportOf codes).keyCode = (codes.filter isNormal).map hidByte ++
          List.replicate (keyboardReportKeyCount - (codes.filter isNormal).length) 0 := by
        unfold reportOf
        rw [if_neg hfalse, hkeys, hnormals]
        rfl
      rw [← hnormals] at hle
      have hiff : (reportOf codes).Rollover ↔
          codes.filter isNormal = List.replicate keyboardReportKeyCount errorRollover := by
        unfold KeyboardReport.Rollover
        rw [hcode]
        exact map_eq_rollover hle
      constructor
      · intro h
        refine ⟨hmods.mp h.modifiers, fun _ hne => absurd hbehind hne, fun _ heq => ?_⟩
        exact (h.rollover.mp (hiff.mpr heq)).elim hprogram (Nat.not_lt.mpr hle)
      · intro h
        refine ⟨hmods.mpr h.modifiers, fun _ _ => hcode, ?_⟩
        exact iff_of_false (fun hr => h.errors hprogram (hiff.mp hr))
          (fun hr => hr.elim hprogram (Nat.not_lt.mpr hle))
    · -- the loop has ended early
      have htrue : (fillCodes codes ⟨emptyReport, 0, false⟩).rollover = true := hroll.mpr (.inr (.inr hbehind))
      have hrollover : (reportOf codes).Rollover := by
        unfold reportOf KeyboardReport.Rollover
        rw [if_pos htrue]
      constructor
      · intro h
        have hmore := (h.rollover.mp hrollover).resolve_left hprogram
        refine ⟨hmods.mp h.modifiers, fun _ _ => hmore, fun _ heq => ?_⟩
        rw [heq, List.length_replicate] at hmore
        exact absurd hmore (Nat.lt_irrefl _)
      · intro h
        have hmore := h.full hprogram hbehind
        exact ⟨hmods.mpr h.modifiers, fun _ hfew => absurd hmore (Nat.not_lt.mpr hfew),
          iff_of_true hrollover (.inr hmore)⟩

/-- **What `keystate_Fill_KeyboardReport` reports.**  After every run and under every mapping the
    report is right exactly if nothing that counts stands behind the sixth normal key; and where two
    reports are right, the same number of normal keys, and the program key in both or in neither, make
    both a rollover or neither. -/
theorem fillReport_right_iff (hw : KeystateHardware) (definition : LogicalKeycode → HidKeycode)
    (steps : List KeyStep) :
    let codes := visibleCodes hw definition (runKeys hw keystateInit steps).1
    let report := keystateFillKeyboardReport hw definition (runKeys hw keystateInit steps).1 emptyReport
    (ReportRight codes report ↔ Reportable codes) ∧
    ∀ (definition' : LogicalKeycode → HidKeycode) (steps' : List KeyStep),
      let codes' := visibleCodes hw definition' (runKeys hw keystateInit steps').1
      let report' := keystateFillKeyboardReport hw definition' (runKeys hw keystateInit steps').1
        emptyReport
      Reportable codes → Reportable codes' →
      (codes.filter isNormal).length = (codes'.filter isNormal).length →
      (programKey ∈ codes ↔ programKey ∈ codes') → (report.Rollover ↔ report'.Rollover) := by
  dsimp only
  rw [keystateFillKeyboardReport_eq]
  refine ⟨reportOf_right_iff _, fun definition' steps' h h' hcount hprogram => ?_⟩
  rw [keystateFillKeyboardReport_eq, ((reportOf_right_iff _).mpr h).rollover,
    ((reportOf_right_iff _).mpr h').rollover, hcount, hprogram]

/-- A to F and the left shift are held on the K80CS: six keys and a modifier are a rollover, without
    the modifier. -/
theorem fillReport_loses_shift :
    let ks := (runKeys k80csKeystate keystateInit
      (List.replicate 3 (k80csScan [4, 5, 6, 7, 8, 9, 70]))).1
    let definition : LogicalKeycode → HidKeycode := fun l => k80csLayout.logicalToHidMapDefault l
    let report := keystateFillKeyboardReport k80csKeystate definition ks emptyReport
    visibleCodes k80csKeystate definition ks = [4, 5, 6, 7, 8, 9, 0xE1] ∧
      report.modifier = 0 ∧ report.keyCode = [1, 1, 1, 1, 1, 1] ∧
      ¬ ReportRight (visibleCodes k80csKeystate definition ks) report := by
  have hcodes : visibleCodes k80csKeystate (fun l => k80csLayout.logicalToHidMapDefault l)
      (runKeys k80csKeystate keystateInit (List.replicate 3 (k80csScan [4, 5, 6, 7, 8, 9, 70]))).1 =
        [4, 5, 6, 7, 8, 9, 0xE1] := by decide +kernel
  dsimp only
  rw [keystateFillKeyboardReport_eq, hcodes]
  refine ⟨rfl, by decide, by decide, fun h => ?_⟩
  exact absurd ((h.modifiers 1).mpr ⟨0xE1, by decide, by decide, by decide⟩) (by decide)

end KeyboardFirmware
