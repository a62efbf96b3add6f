/-
  `keystate_Fill_MouseReport`: the held mouse keys as the report that is sent.

  A key adds to its axis or subtracts from it, and the speed of the axis, a signed byte, is the sum of
  what was added since the last report without any of its keys.  The sum is not limited: it wraps, and
  what is left of the other direction counts against a key (`neverReverses_iff`).
-/
import KeyboardFirmware.Keystate.Report
import KeyboardFirmware.Lib.WrappingSum

namespace KeyboardFirmware

open Lib
open Compiler (Word8)

/-! ## The special codes -/

/-- `SPECIAL_HID_KEY_MOUSE_BTN1`. -/
def mouseBtn1 : HidKeycode := specialHidKeysStart
/-- `SPECIAL_HID_KEY_MOUSE_BTN2`. -/
def mouseBtn2 : HidKeycode := 0xE9
/-- `SPECIAL_HID_KEY_MOUSE_BTN3`. -/
def mouseBtn3 : HidKeycode := 0xEA
/-- `SPECIAL_HID_KEY_MOUSE_BTN4`. -/
def mouseBtn4 : HidKeycode := 0xEB
/-- `SPECIAL_HID_KEY_MOUSE_BTN5`. -/
def mouseBtn5 : HidKeycode := 0xEC
/-- `SPECIAL_HID_KEY_MOUSE_FWD`. -/
def mouseFwd : HidKeycode := 0xED
/-- `SPECIAL_HID_KEY_MOUSE_BACK`. -/
def mouseBack : HidKeycode := 0xEE
/-- `SPECIAL_HID_KEY_MOUSE_LEFT`. -/
def mouseLeft : HidKeycode := 0xEF
/-- `SPECIAL_HID_KEY_MOUSE_RIGHT`. -/
def mouseRight : HidKeycode := 0xF0
/-- `SPECIAL_HID_KEY_WHEEL_FWD`. -/
def wheelFwd : HidKeycode := 0xF1
/-- `SPECIAL_HID_KEY_WHEEL_BACK`. -/
def wheelBack : HidKeycode := 0xF2
/-- `SPECIAL_HID_KEY_WHEEL_LEFT`. -/
def wheelLeft : HidKeycode := 0xF3
/-- `SPECIAL_HID_KEY_WHEEL_RIGHT`. -/
def wheelRight : HidKeycode := 0xF4

/-! ## The report -/

/-- `MouseReport_Data_t`. -/
structure MouseReport where
  button : Word8
  x : Int8
  y : Int8
  vWheel : Int8
  hWheel : Int8
  deriving DecidableEq

/-- The report that is handed over: both callers clear it. -/
def emptyMouseReport : MouseReport := ⟨0, 0, 0, 0, 0⟩

/-- The static variables of `keystate_Fill_MouseReport`. -/
structure MouseState where
  prevButton : Word8
  cntMove : Byte
  speedXMove : Int8
  speedYMove : Int8
  cntWheel : Byte
  speedXWheel : Int8
  speedYWheel : Int8
  deriving DecidableEq

/-- The variables at start-up. -/
def mouseStateInit : MouseState := ⟨0, 0, 0, 0, 0, 0, 0⟩

/-- What one call reads. -/
structure MouseCall where
  definition : LogicalKeycode → HidKeycode
  keystate : Keystate
  /-- The table has `KEYSTATE_COUNT` slots. -/
  slots_eq : keystate.keyStates.length = keystateCount
  /-- `config_get_mouse_div`. -/
  mouseDiv : Byte
  /-- `config_get_wheel_div`. -/
  wheelDiv : Byte

/-- What the loop over the key states writes to: the report, and its four variables. -/
structure Mousing where
  report : MouseReport
  movingX : Bool
  movingY : Bool
  wheelingX : Bool
  wheelingY : Bool

/-- The switch over the mouse keys. -/
def mouseKey (hKey : HidKeycode) (m : Mousing) : Mousing :=
  let r := m.report
  if hKey = mouseBtn1 then { m with report := { r with button := r.button ||| 1 } }
  else if hKey = mouseBtn2 then { m with report := { r with button := r.button ||| 1 <<< 1 } }
  else if hKey = mouseBtn3 then { m with report := { r with button := r.button ||| 1 <<< 2 } }
  else if hKey = mouseBtn4 then { m with report := { r with button := r.button ||| 1 <<< 3 } }
  else if hKey = mouseBtn5 then { m with report := { r with button := r.button ||| 1 <<< 4 } }
  else if hKey = mouseFwd then { m with movingY := true, report := { r with y := r.y + -1 } }
  else if hKey = mouseBack then { m with movingY := true, report := { r with y := r.y + 1 } }
  else if hKey = mouseLeft then { m with movingX := true, report := { r with x := r.x + -1 } }
  else if hKey = mouseRight then { m with movingX := true, report := { r with x := r.x + 1 } }
  else if hKey = wheelFwd then { m with wheelingY := true, report := { r with vWheel := r.vWheel + 1 } }
  else if hKey = wheelBack then
    { m with wheelingY := true, report := { r with vWheel := r.vWheel + -1 } }
  else if hKey = wheelLeft then
    { m with wheelingX := true, report := { r with hWheel := r.hWheel + -1 } }
  else if hKey = wheelRight then
    { m with wheelingX := true, report := { r with hWheel := r.hWheel + 1 } }
  else m

/-- The loop of `keystate_Fill_MouseReport`, over the slots that are left. -/
def mouseLoop (hw : KeystateHardware) (definition : LogicalKeycode → HidKeycode) (layer : Layer) :
    List KeyState → Mousing → Mousing
  | [], m => m
  | key :: slots, m =>
    if key.state && !key.hidden then
      let hKey := extractKeycode hw definition layer key .hid
      if mouseBtn1 ≤ hKey ∧ hKey ≤ wheelRight then
        mouseLoop hw definition layer slots (mouseKey hKey m)
      else mouseLoop hw definition layer slots m
    else mouseLoop hw definition layer slots m

/-- `adjust_speed_and_report`: the new speed and the new value of the report. -/
def adjustSpeedAndReport (moving : Bool) (speed reportVal : Int8) : Int8 × Int8 :=
  if moving then (speed + reportVal, speed + reportVal) else (0, reportVal)

/-- The next value of a counter, modulo a divider. -/
def nextCount (cnt div : Byte) : Byte := Fin.ofNat 256 ((cnt.val + 1) % div.val)

/-- `keystate_Fill_MouseReport`. -/
def keystateFillMouseReport (hw : KeystateHardware) (st : MouseState) (call : MouseCall)
    (report : MouseReport) : MouseReport × MouseState :=
  -- rate limit mouse move reports
  let st := { st with cntMove := nextCount st.cntMove call.mouseDiv }
  if st.cntMove ≠ 1 then ({ report with button := st.prevButton }, st)
  else
    let m := mouseLoop hw call.definition call.keystate.layer call.keystate.keyStates
      ⟨report, false, false, false, false⟩
    let x := adjustSpeedAndReport m.movingX st.speedXMove m.report.x
    let y := adjustSpeedAndReport m.movingY st.speedYMove m.report.y
    let report := { m.report with x := x.2, y := y.2 }
    let st := { st with
      prevButton := m.report.button, speedXMove := x.1, speedYMove := y.1
      cntWheel := nextCount st.cntWheel call.wheelDiv }
    -- rate limit mouse wheel reports
    if st.cntWheel ≠ 1 then ({ report with vWheel := 0, hWheel := 0 }, st)
    else
      let h := adjustSpeedAndReport m.wheelingX st.speedXWheel report.hWheel
      let v := adjustSpeedAndReport m.wheelingY st.speedYWheel report.vWheel
      ({ report with hWheel := h.2, vWheel := v.2 },
        { st with speedXWheel := h.1, speedYWheel := v.1 })

/-! ## The axes -/

/-- What the keys move. -/
inductive Axis
  | x
  | y
  | hWheel
  | vWheel
  deriving DecidableEq

/-- The displacement on an axis. -/
def MouseReport.get (report : MouseReport) : Axis → Int8
  | .x => report.x
  | .y => report.y
  | .hWheel => report.hWheel
  | .vWheel => report.vWheel

/-- The speed of an axis. -/
def MouseState.speed (st : MouseState) : Axis → Int8
  | .x => st.speedXMove
  | .y => st.speedYMove
  | .hWheel => st.speedXWheel
  | .vWheel => st.speedYWheel

/-- A key of the axis is held. -/
def Mousing.moving (m : Mousing) : Axis → Bool
  | .x => m.movingX
  | .y => m.movingY
  | .hWheel => m.wheelingX
  | .vWheel => m.wheelingY

/-- A direction key: one that adds to its axis or subtracts from it. -/
structure Direction where
  axis : Axis
  adds : Bool
  deriving DecidableEq

/-- The code of a direction key. -/
def Direction.code : Direction → HidKeycode
  | ⟨.x, true⟩ => mouseRight
  | ⟨.x, false⟩ => mouseLeft
  | ⟨.y, true⟩ => mouseBack
  | ⟨.y, false⟩ => mouseFwd
  | ⟨.hWheel, true⟩ => wheelRight
  | ⟨.hWheel, false⟩ => wheelLeft
  | ⟨.vWheel, true⟩ => wheelFwd
  | ⟨.vWheel, false⟩ => wheelBack

/-- The key that moves the other way. -/
def Direction.opposite (dir : Direction) : Direction := { dir with adds := !dir.adds }

/-- The sign of the displacements that a direction stands for. -/
def Direction.sign (dir : Direction) : Int := if dir.adds then 1 else -1

/-- The call passes the first rate limit: it is a movement tick. -/
def MouseState.ticks (st : MouseState) (call : MouseCall) : Bool :=
  nextCount st.cntMove call.mouseDiv = 1

/-- The call passes the second one too: it reports the wheel. -/
def MouseState.wheels (st : MouseState) (call : MouseCall) : Bool :=
  st.ticks call && nextCount st.cntWheel call.wheelDiv = 1

/-- The call reports an axis. -/
def MouseState.reports (st : MouseState) (call : MouseCall) : Axis → Bool
  | .x | .y => st.ticks call
  | .hWheel | .vWheel => st.wheels call

/-- The codes of the visible held keys. -/
def MouseCall.codes (hw : KeystateHardware) (call : MouseCall) : List HidKeycode :=
  visibleCodes hw call.definition call.keystate

/-- A direction key is held, and its opposite is not. -/
def MouseCall.Holds (hw : KeystateHardware) (call : MouseCall) (dir : Direction) : Prop :=
  dir.code ∈ call.codes hw ∧ dir.opposite.code ∉ call.codes hw

instance (hw : KeystateHardware) (call : MouseCall) (dir : Direction) : Decidable (call.Holds hw dir) :=
  inferInstanceAs (Decidable (_ ∧ _))

/-- How many keys of a direction are held. -/
def MouseCall.keysOf (hw : KeystateHardware) (call : MouseCall) (dir : Direction) : Nat :=
  (call.codes hw).count dir.code

/-! ## Runs -/

/-- A call: the variables before it, what it reads, and its report. -/
structure MouseStep where
  before : MouseState
  call : MouseCall
  report : MouseReport

/-- The calls one after the other. -/
def mouseRun (hw : KeystateHardware) : MouseState → List MouseCall → List MouseStep
  | _, [] => []
  | st, call :: calls =>
    let filled := keystateFillMouseReport hw st call emptyMouseReport
    ⟨st, call, filled.1⟩ :: mouseRun hw filled.2 calls

/-- The calls of a run that report an axis. -/
def axisSteps (hw : KeystateHardware) (axis : Axis) (st : MouseState) (calls : List MouseCall) :
    List MouseStep :=
  (mouseRun hw st calls).filter fun step => step.before.reports step.call axis

/-- The displacements that some calls report, counted in a direction. -/
def displacements (dir : Direction) (steps : List MouseStep) : List Int :=
  steps.map fun step => dir.sign * (step.report.get dir.axis).toInt

/-- The key of the direction is held at all of the calls, and its opposite at none. -/
def HeldAt (hw : KeystateHardware) (dir : Direction) (steps : List MouseStep) : Prop :=
  ∀ step ∈ steps, step.call.Holds hw dir

/-- The numbers of keys held in a direction. -/
def pushes (hw : KeystateHardware) (dir : Direction) (steps : List MouseStep) : List Int :=
  steps.map fun step => step.call.keysOf hw dir

/-- The largest displacement of a direction. -/
def Direction.limit (dir : Direction) : Int := if dir.adds then 127 else 128

/-! ## One call -/

variable {hw : KeystateHardware} {m : Mousing} {axis : Axis} {st : MouseState} {call : MouseCall}

/-- What a key adds to an axis. -/
def keyStep (axis : Axis) (hKey : HidKeycode) : Int8 :=
  if hKey = Direction.code ⟨axis, true⟩ then 1
  else if hKey = Direction.code ⟨axis, false⟩ then -1
  else 0

/-- A key is one of an axis. -/
def keyMoves (axis : Axis) (hKey : HidKeycode) : Bool :=
  hKey = Direction.code ⟨axis, true⟩ || hKey = Direction.code ⟨axis, false⟩

/-- The codes of the switch. -/
def mouseKeys : List HidKeycode := [mouseBtn1, mouseBtn2, mouseBtn3, mouseBtn4, mouseBtn5, mouseFwd,
  mouseBack, mouseLeft, mouseRight, wheelFwd, wheelBack, wheelLeft, wheelRight]

theorem code_mem (dir : Direction) : dir.code ∈ mouseKeys := by
  obtain ⟨axis, adds⟩ := dir
  cases axis <;> cases adds <;> decide

/-- **The switch** adds what the key stands for to every axis. -/
theorem mouseKey_get (axis : Axis) (hKey : HidKeycode) (m : Mousing) :
    (mouseKey hKey m).report.get axis = m.report.get axis + keyStep axis hKey ∧
      (mouseKey hKey m).moving axis = (m.moving axis || keyMoves axis hKey) := by
  by_cases hmem : hKey ∈ mouseKeys
  · simp only [mouseKeys, List.mem_cons, List.not_mem_nil, or_false] at hmem
    rcases hmem with rfl | rfl | rfl | rfl | rfl | rfl | rfl | rfl | rfl | rfl | rfl | rfl | rfl <;>
      cases axis <;>
      first
      | exact ⟨rfl, (Bool.or_true _).symm⟩
      | exact ⟨(Int8.add_zero _).symm, (Bool.or_false _).symm⟩
  · have hne : ∀ code ∈ mouseKeys, hKey ≠ code := fun code hcode heq => hmem (heq ▸ hcode)
    have hsame : mouseKey hKey m = m := by
      simp only [mouseKeys, List.forall_mem_cons] at hne
      obtain ⟨h1, h2, h3, h4, h5, h6, h7, h8, h9, h10, h11, h12, h13, -⟩ := hne
      rw [mouseKey, if_neg h1, if_neg h2, if_neg h3, if_neg h4, if_neg h5, if_neg h6, if_neg h7,
        if_neg h8, if_neg h9, if_neg h10, if_neg h11, if_neg h12, if_neg h13]
    have hadds := hne _ (code_mem ⟨axis, true⟩)
    have hsubs := hne _ (code_mem ⟨axis, false⟩)
    rw [hsame, keyStep, keyMoves, if_neg hadds, if_neg hsubs, decide_eq_false hadds,
      decide_eq_false hsubs, Bool.or_false, Bool.or_false, Int8.add_zero]
    exact ⟨rfl, rfl⟩

/-- What some keys add to an axis. -/
def net (axis : Axis) (codes : List HidKeycode) : Int :=
  codes.count (Direction.code ⟨axis, true⟩) - codes.count (Direction.code ⟨axis, false⟩)

theorem code_ne (axis : Axis) : Direction.code ⟨axis, false⟩ ≠ Direction.code ⟨axis, true⟩ := by
  cases axis <;> decide

theorem net_cons (axis : Axis) (hKey : HidKeycode) (codes : List HidKeycode) :
    Int8.ofInt (net axis (hKey :: codes)) = keyStep axis hKey + Int8.ofInt (net axis codes) := by
  unfold net keyStep
  split_ifs with hadds hsubs
  · subst hadds
    have hone : (1 : Int8) = Int8.ofInt 1 := rfl
    rw [List.count_cons_self, List.count_cons_of_ne (code_ne axis).symm, hone, ← Int8.ofInt_add]
    congr 1
    omega
  · subst hsubs
    have hone : (-1 : Int8) = Int8.ofInt (-1) := rfl
    rw [List.count_cons_self, List.count_cons_of_ne (code_ne axis), hone, ← Int8.ofInt_add]
    congr 1
    omega
  · rw [List.count_cons_of_ne hadds, List.count_cons_of_ne hsubs, Int8.zero_add]

/-- **The loop** adds the held keys to every axis. -/
theorem mouseLoop_get (hw : KeystateHardware) (axis : Axis)
    (definition : LogicalKeycode → HidKeycode) (layer : Layer) :
    ∀ (slots : List KeyState) (m : Mousing),
      let codes := (slots.filter fun key => key.state && !key.hidden).map fun key =>
        extractKeycode hw definition layer key .hid
      let filled := mouseLoop hw definition layer slots m
      filled.report.get axis = m.report.get axis + Int8.ofInt (net axis codes) ∧
        filled.moving axis = (m.moving axis || codes.any (keyMoves axis))
  | [], m => ⟨(Int8.add_zero _).symm, (Bool.or_false _).symm⟩
  | key :: slots, m => by
    have ih := mouseLoop_get hw axis definition layer slots
    simp only at ih ⊢
    rw [mouseLoop, List.filter_cons]
    split
    · rw [List.map_cons, net_cons, List.any_cons]
      simp only
      split
      · obtain ⟨hget, hmoving⟩ := mouseKey_get axis (extractKeycode hw definition layer key .hid) m
        rw [(ih _).1, (ih _).2, hget, hmoving, Int8.add_assoc, Bool.or_assoc]
        exact ⟨rfl, rfl⟩
      · next hrange =>
        have hne : ∀ dir : Direction, extractKeycode hw definition layer key .hid ≠ dir.code := by
          rintro dir heq
          rw [heq] at hrange
          exact hrange (by obtain ⟨axis, adds⟩ := dir; cases axis <;> cases adds <;> decide)
        rw [(ih _).1, (ih _).2, keyStep, keyMoves, if_neg (hne _), if_neg (hne _),
          decide_eq_false (hne _), decide_eq_false (hne _), Int8.zero_add]
        exact ⟨rfl, rfl⟩
    · exact ih m

/-- **A call** adjusts the speed of the axes that it reports, and of no other. -/
theorem keystateFillMouseReport_axis (hw : KeystateHardware) (st : MouseState) (call : MouseCall)
    (report : MouseReport) (axis : Axis) :
    let filled := keystateFillMouseReport hw st call report
    let m := mouseLoop hw call.definition call.keystate.layer call.keystate.keyStates
      ⟨report, false, false, false, false⟩
    if st.reports call axis then
      (filled.2.speed axis, filled.1.get axis) =
        adjustSpeedAndReport (m.moving axis) (st.speed axis) (m.report.get axis)
    else filled.2.speed axis = st.speed axis := by
  intro filled m
  by_cases hmove : nextCount st.cntMove call.mouseDiv = 1
  · by_cases hwheel : nextCount st.cntWheel call.wheelDiv = 1
    · cases axis <;> simp [filled, m, keystateFillMouseReport, MouseState.reports, MouseState.ticks, MouseState.wheels,
        hmove, hwheel, MouseState.speed, MouseReport.get, Mousing.moving]
    · cases axis <;> simp [filled, m, keystateFillMouseReport, MouseState.reports, MouseState.ticks, MouseState.wheels,
        hmove, hwheel, MouseState.speed, MouseReport.get, Mousing.moving]
  · cases axis <;> simp [filled, keystateFillMouseReport, MouseState.reports, MouseState.ticks, MouseState.wheels,
        hmove, MouseState.speed]

/-! ## A held key -/

variable {dir : Direction} {calls : List MouseCall} {report : MouseReport}

/-- The first of the 256 numbers that the displacements of a direction wrap to. -/
def Direction.lowest (dir : Direction) : Int := if dir.adds then -128 else -127

theorem Direction.lowest_add (dir : Direction) : dir.lowest + (256 : Nat) = dir.limit + 1 := by
  unfold Direction.lowest Direction.limit
  split <;> rfl

/-- A signed byte counted in a direction. -/
theorem Direction.sign_mem (dir : Direction) (v : Int8) :
    dir.lowest ≤ dir.sign * v.toInt ∧ dir.sign * v.toInt < dir.lowest + (256 : Nat) := by
  have hlt := v.toInt_lt
  have hle := v.le_toInt
  unfold Direction.lowest Direction.sign
  split <;> omega

/-- The sum of two signed bytes, counted in a direction, wraps. -/
theorem Direction.sign_add (dir : Direction) (v : Int8) {x : Int} {d : Nat} (hx : x = dir.sign * d) :
    dir.sign * (v + Int8.ofInt x).toInt = wrapFrom dir.lowest 256 (dir.sign * v.toInt + d) := by
  subst hx
  have hsize : (2 : Nat) ^ 8 = 256 := rfl
  have hbmod : (v + Int8.ofInt (dir.sign * d)).toInt = (v.toInt + dir.sign * d).bmod 256 := by
    rw [Int8.toInt_add, Int8.toInt_ofInt, hsize]
    exact Int.add_bmod_bmod
  rw [hbmod, Int.bmod_def, wrapFrom]
  unfold Direction.lowest Direction.sign
  split_ifs <;> omega

theorem net_of_holds (h : call.Holds hw dir) :
    net dir.axis (call.codes hw) = dir.sign * call.keysOf hw dir := by
  obtain ⟨axis, adds⟩ := dir
  have hopposite := List.count_eq_zero.mpr h.2
  unfold net MouseCall.keysOf Direction.sign
  cases adds with
  | true =>
    have hzero : (call.codes hw).count (Direction.code ⟨axis, false⟩) = 0 := hopposite
    simp only [hzero, if_true]
    omega
  | false =>
    have hzero : (call.codes hw).count (Direction.code ⟨axis, true⟩) = 0 := hopposite
    simp only [hzero, Bool.false_eq_true, if_false]
    omega

theorem moving_of_holds (h : call.Holds hw dir) :
    (call.codes hw).any (keyMoves dir.axis) = true := by
  refine List.any_eq_true.mpr ⟨dir.code, h.1, ?_⟩
  obtain ⟨axis, adds⟩ := dir
  unfold keyMoves
  cases adds with
  | true => rw [decide_eq_true rfl, Bool.true_or]
  | false => rw [decide_eq_true rfl, Bool.or_true]

/-- At least one key is held, and no more than there are slots. -/
theorem keysOf_mem (h : call.Holds hw dir) :
    0 < call.keysOf hw dir ∧ call.keysOf hw dir ≤ keystateCount := by
  constructor
  · exact List.count_pos_iff.mpr h.1
  · have hslots := call.slots_eq
    have hfilter := List.length_filter_le (fun key : KeyState => key.state && !key.hidden)
      call.keystate.keyStates
    have hcount := List.count_le_length (a := dir.code) (l := call.codes hw)
    have hlen : (call.codes hw).length = (call.keystate.keyStates.filter fun key =>
        key.state && !key.hidden).length := List.length_map _
    unfold MouseCall.keysOf
    omega

/-- **A report of a held key** adds the number of keys to the speed, and reports the speed. -/
theorem report_of_holds (hreports : st.reports call dir.axis = true) (h : call.Holds hw dir) :
    let filled := keystateFillMouseReport hw st call emptyMouseReport
    filled.1.get dir.axis = filled.2.speed dir.axis ∧ dir.sign * (filled.2.speed dir.axis).toInt =
      wrapFrom dir.lowest 256 (dir.sign * (st.speed dir.axis).toInt + call.keysOf hw dir) := by
  intro filled
  have haxis := keystateFillMouseReport_axis hw st call emptyMouseReport dir.axis
  have hloop := mouseLoop_get hw dir.axis call.definition call.keystate.layer
    call.keystate.keyStates ⟨emptyMouseReport, false, false, false, false⟩
  simp only [hreports, if_true] at haxis
  obtain ⟨hget, hmoving⟩ := hloop
  have hzero : emptyMouseReport.get dir.axis = 0 := by cases dir.axis <;> rfl
  have hstill : (⟨emptyMouseReport, false, false, false, false⟩ : Mousing).moving dir.axis = false := by
    cases dir.axis <;> rfl
  have hmoves := hmoving.trans (congrArg₂ (· || ·) hstill (moving_of_holds h))
  have hpush := hget.trans ((congrArg (· + _) hzero).trans (Int8.zero_add _))
  rw [hmoves, hpush, Bool.false_or, adjustSpeedAndReport, if_pos rfl, Prod.mk.injEq] at haxis
  obtain ⟨hspeed, hvalue⟩ := haxis
  refine ⟨hvalue.trans hspeed.symm, ?_⟩
  rw [hspeed]
  exact dir.sign_add (st.speed dir.axis) (net_of_holds h)

theorem speed_of_not_reports (hw : KeystateHardware) (report : MouseReport) {axis : Axis}
    (hreports : st.reports call axis = false) :
    (keystateFillMouseReport hw st call report).2.speed axis = st.speed axis := by
  have haxis := keystateFillMouseReport_axis hw st call report axis
  simpa only [hreports, Bool.false_eq_true, if_false] using haxis

/-- A call that reports the axis comes first. -/
theorem axisSteps_of_reports {axis : Axis} (hreports : st.reports call axis = true) :
    axisSteps hw axis st (call :: calls) =
      ⟨st, call, (keystateFillMouseReport hw st call emptyMouseReport).1⟩ ::
        axisSteps hw axis (keystateFillMouseReport hw st call emptyMouseReport).2 calls :=
  List.filter_cons_of_pos hreports

/-- A call that does not report the axis is left out. -/
theorem axisSteps_of_not_reports {axis : Axis} (hreports : st.reports call axis = false) :
    axisSteps hw axis st (call :: calls) =
      axisSteps hw axis (keystateFillMouseReport hw st call emptyMouseReport).2 calls :=
  List.filter_cons_of_neg (by simp only [hreports, Bool.false_eq_true, not_false_eq_true])

/-- **A run with a held key** reports the sums of the numbers of keys. -/
theorem displacements_eq : ∀ (calls : List MouseCall) (st : MouseState),
    HeldAt hw dir (axisSteps hw dir.axis st calls) →
    displacements dir (axisSteps hw dir.axis st calls) =
      wrappedSums dir.lowest 256 (dir.sign * (st.speed dir.axis).toInt)
        (pushes hw dir (axisSteps hw dir.axis st calls))
  | [], _, _ => rfl
  | call :: calls, st, hheld => by
    have ih := displacements_eq calls (keystateFillMouseReport hw st call emptyMouseReport).2
    cases hreports : st.reports call dir.axis with
    | true =>
      rw [axisSteps_of_reports hreports] at hheld ⊢
      obtain ⟨hvalue, hsum⟩ := report_of_holds hreports (hheld _ List.mem_cons_self)
      rw [displacements, pushes, List.map_cons, List.map_cons, wrappedSums, ← hsum]
      simp only [hvalue]
      exact congrArg _ (ih fun step hstep => hheld step (List.mem_cons_of_mem _ hstep))
    | false =>
      rw [axisSteps_of_not_reports hreports] at hheld ⊢
      rw [← speed_of_not_reports hw emptyMouseReport hreports]
      exact ih hheld

/-- The displacements have the direction of the key, and none is smaller than one before it. -/
def NeverReverses (dir : Direction) (steps : List MouseStep) : Prop := Grows (displacements dir steps)

/-- **A held key never reverses** if and only if the speed it finds is less against it than its first
    push, and all of its pushes together stay within the range of the report. -/
theorem neverReverses_iff (hw : KeystateHardware) (dir : Direction) (st : MouseState)
    (calls : List MouseCall) (hheld : HeldAt hw dir (axisSteps hw dir.axis st calls)) :
    let steps := axisSteps hw dir.axis st calls
    let speed := dir.sign * (st.speed dir.axis).toInt
    NeverReverses dir steps ↔ ∀ push ∈ (pushes hw dir steps).head?,
      0 < speed + push ∧ speed + (pushes hw dir steps).sum ≤ dir.limit := by
  intro steps speed
  have hlimit := dir.lowest_add
  have hlowest : dir.lowest ≤ 0 ∧ -128 ≤ dir.lowest ∧ dir.lowest ≤ -127 := by
    unfold Direction.lowest
    split <;> omega
  obtain ⟨hle, hlt⟩ := dir.sign_mem (st.speed dir.axis)
  have hpushes : ∀ push ∈ pushes hw dir steps, 0 < push ∧ push ≤ 1 - dir.lowest := by
    intro push hpush
    obtain ⟨step, hstep, rfl⟩ := List.mem_map.mp hpush
    obtain ⟨hpos, hslots⟩ := keysOf_mem (hheld step hstep)
    have hcount : keystateCount = 14 := rfl
    omega
  rw [NeverReverses, displacements_eq calls st hheld,
    wrappedSums_grows_iff hlowest.1 (by omega) hle hlt hpushes]
  constructor
  · intro h push hpush
    have := h push hpush
    omega
  · intro h push hpush
    have := h push hpush
    omega

/-- A mapping in which one key moves the mouse to the right. -/
def rightMapping (key : LogicalKeycode) : HidKeycode := if key = 4 then mouseRight else 0

/-- The K80CS with this key held, debounced, and the divider 2 for both rates. -/
def k80csRight : MouseCall where
  definition := rightMapping
  keystate := (runKeys k80csKeystate keystateInit (List.replicate 3 (.update
    ⟨3, debounceLen_pos, debounceLen_le, rightMapping, pressing k80csKeystate [4]⟩))).1
  slots_eq := by decide +kernel
  mouseDiv := 2
  wheelDiv := 2

/-- The key is held for two ticks. -/
theorem neverReverses_two_ticks :
    let steps := axisSteps k80csKeystate .x mouseStateInit (List.replicate 4 k80csRight)
    NeverReverses ⟨.x, true⟩ steps ∧ displacements ⟨.x, true⟩ steps = [1, 2] := by
  intro steps
  have hheld : HeldAt k80csKeystate ⟨.x, true⟩ steps := by
    unfold HeldAt
    decide +kernel
  have hiff := neverReverses_iff k80csKeystate ⟨.x, true⟩ mouseStateInit (List.replicate 4 k80csRight)
    hheld
  exact ⟨hiff.mpr (by decide +kernel), by decide +kernel⟩

/-- The key is held for 128 ticks from start-up: the last displacement is 128 to the left. -/
theorem long_hold_reverses :
    let steps := axisSteps k80csKeystate .x mouseStateInit (List.replicate 256 k80csRight)
    HeldAt k80csKeystate ⟨.x, true⟩ steps ∧ ¬ NeverReverses ⟨.x, true⟩ steps := by
  intro steps
  constructor
  · unfold HeldAt
    decide +kernel
  · intro h
    have hlast : -128 ∈ displacements ⟨.x, true⟩ steps := by decide +kernel
    exact absurd (h.positive (-128) hlast) (by decide)

end KeyboardFirmware
