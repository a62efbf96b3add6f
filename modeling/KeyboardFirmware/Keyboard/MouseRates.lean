/-
  The dividers of the mouse rates.

  Both counters of `keystate_Fill_MouseReport` are compared with 1, so the divider 1, which the chords
  can save, stops what it divides: the rates are right exactly for dividers from 2 on
  (`ratesRight_iff`).
-/
import KeyboardFirmware.Keyboard.Trigger
import KeyboardFirmware.Keystate.MouseReport
import KeyboardFirmware.Lib.Divider

namespace KeyboardFirmware

open Lib

/-- The calls read the same dividers. -/
def ConstantDividers (m w : Byte) (calls : List MouseCall) : Prop :=
  ∀ call ∈ calls, call.mouseDiv = m ∧ call.wheelDiv = w

/-- The movement ticks among some calls. -/
def movementTicks (hw : KeystateHardware) (st : MouseState) (calls : List MouseCall) : List MouseStep :=
  (mouseRun hw st calls).filter fun step => step.before.ticks step.call

/-- The calls that report the wheel. -/
def wheelReports (hw : KeystateHardware) (st : MouseState) (calls : List MouseCall) : List MouseStep :=
  (mouseRun hw st calls).filter fun step => step.before.wheels step.call

/-- What the dividers are for. -/
structure RatesRight (hw : KeystateHardware) (m w : Byte) : Prop where
  /-- one of as many calls as the mouse divider says is a movement tick -/
  moves : ∀ st calls, ConstantDividers m w calls → calls.length = m.val →
    (movementTicks hw st calls).length = 1
  /-- one of as many movement ticks as the wheel divider says reports the wheel -/
  wheels : ∀ st calls, ConstantDividers m w calls → (movementTicks hw st calls).length = w.val →
    (wheelReports hw st calls).length = 1
  /-- a held mouse or wheel key moves eventually -/
  eventually : ∀ dir st calls, ConstantDividers m w calls → (∀ call ∈ calls, call.Holds hw dir) →
    2 * (m.val * w.val) ≤ calls.length →
    ∃ step ∈ mouseRun hw st calls, step.report.get dir.axis ≠ 0

/-- The dividers that a user can get saved, with chords and without uploads. -/
def CanSave (hw : KeyboardHardware) (m w : Byte) : Prop :=
  ∃ config its, let kb := runLoop hw (keyboardInit config ⟨3, 25, 4⟩) its
    kb.settings.mouseDiv = m ∧ kb.settings.wheelDiv = w

/-! ## The counters -/

variable {hw : KeystateHardware} {m w : Byte} {st : MouseState} {call : MouseCall}
  {calls : List MouseCall} {report : MouseReport}

theorem nextCount_val {cnt div : Byte} (hdiv : 0 < div.val) :
    (nextCount cnt div).val = (cnt.val + 1) % div.val := by
  have hlt := Nat.mod_lt (cnt.val + 1) hdiv
  have hbyte := div.isLt
  exact Nat.mod_eq_of_lt (by omega)

theorem nextCount_eq_one_iff {cnt div : Byte} (hdiv : 0 < div.val) :
    nextCount cnt div = 1 ↔ (cnt.val + 1) % div.val = 1 := by
  rw [Fin.ext_iff, nextCount_val hdiv]
  rfl

theorem cntMove_next (hw : KeystateHardware) (st : MouseState) (call : MouseCall) (report : MouseReport) :
    (keystateFillMouseReport hw st call report).2.cntMove = nextCount st.cntMove call.mouseDiv := by
  unfold keystateFillMouseReport
  by_cases hmove : nextCount st.cntMove call.mouseDiv = 1
  · simp only [hmove, ne_eq, not_true_eq_false, if_false]
    split_ifs <;> rfl
  · simp only [hmove, ne_eq, not_false_eq_true, if_true]

theorem cntWheel_next (hw : KeystateHardware) (st : MouseState) (call : MouseCall) (report : MouseReport) :
    (keystateFillMouseReport hw st call report).2.cntWheel =
      if st.ticks call then nextCount st.cntWheel call.wheelDiv else st.cntWheel := by
  unfold keystateFillMouseReport MouseState.ticks
  by_cases hmove : nextCount st.cntMove call.mouseDiv = 1
  · simp only [hmove, ne_eq, not_true_eq_false, if_false, decide_true, if_true]
    split_ifs <;> rfl
  · simp only [hmove, ne_eq, not_false_eq_true, if_true, decide_false, Bool.false_eq_true, if_false]

/-- **The movement ticks** are the hits of the first counter. -/
theorem movementTicks_length (hw : KeystateHardware) (hm : 0 < m.val) :
    ∀ (calls : List MouseCall) (st : MouseState), ConstantDividers m w calls →
    (movementTicks hw st calls).length = hits m.val st.cntMove.val calls.length
  | [], _, _ => rfl
  | call :: calls, st, hdiv => by
    obtain ⟨hmouse, -⟩ := hdiv call List.mem_cons_self
    have ih := movementTicks_length hw hm calls (keystateFillMouseReport hw st call emptyMouseReport).2
      fun c hc => hdiv c (List.mem_cons_of_mem _ hc)
    rw [cntMove_next, hmouse, nextCount_val hm] at ih
    rw [List.length_cons, hits, ← ih, movementTicks, mouseRun, List.filter_cons]
    simp only [MouseState.ticks, hmouse, nextCount_eq_one_iff hm, decide_eq_true_eq]
    split
    · rw [List.length_cons, Nat.add_comm]
      rfl
    · rw [Nat.zero_add]
      rfl

/-- **The wheel reports** are the hits of the second one, which moves on with the movement ticks. -/
theorem wheelReports_length (hw0 : 0 < w.val) : ∀ (calls : List MouseCall) (st : MouseState),
    ConstantDividers m w calls →
    (wheelReports hw st calls).length = hits w.val st.cntWheel.val (movementTicks hw st calls).length
  | [], _, _ => rfl
  | call :: calls, st, hdiv => by
    obtain ⟨-, hwheel⟩ := hdiv call List.mem_cons_self
    have ih := wheelReports_length hw0 calls (keystateFillMouseReport hw st call emptyMouseReport).2
      fun c hc => hdiv c (List.mem_cons_of_mem _ hc)
    rw [cntWheel_next, hwheel] at ih
    rw [wheelReports, movementTicks, mouseRun, List.filter_cons, List.filter_cons]
    cases hticks : st.ticks call with
    | true =>
      rw [hticks, if_pos rfl, nextCount_val hw0] at ih
      simp only [MouseState.wheels, hticks, hwheel, Bool.true_and, nextCount_eq_one_iff hw0, decide_eq_true_eq,
        if_true, List.length_cons, hits]
      split
      · rw [List.length_cons, Nat.add_comm]
        exact congrArg _ ih
      · rw [Nat.zero_add]
        exact ih
    | false =>
      rw [hticks, if_neg Bool.false_ne_true] at ih
      simp only [MouseState.wheels, hticks, Bool.false_and, Bool.false_eq_true, if_false]
      exact ih

/-! ## The rates -/

theorem wheelReports_length_le (hw : KeystateHardware) (st : MouseState) (calls : List MouseCall) :
    (wheelReports hw st calls).length ≤ (movementTicks hw st calls).length := by
  refine List.Sublist.length_le (List.monotone_filter_right _ fun step => ?_)
  unfold MouseState.wheels
  cases step.before.ticks step.call <;> simp

/-- No key is held. -/
def idleCall (m w : Byte) : MouseCall := ⟨fun _ => noKey, keystateInit, List.length_replicate, m, w⟩

theorem idle_constant (m w : Byte) (k : Nat) : ConstantDividers m w (List.replicate k (idleCall m w)) := by
  intro call hcall
  rw [List.eq_of_mem_replicate hcall]
  exact ⟨rfl, rfl⟩

theorem RatesRight.two_le_mouse (h : RatesRight hw m w) : 2 ≤ m.val := by
  have htick := h.moves mouseStateInit _ (idle_constant m w m.val) List.length_replicate
  by_contra hlt
  rcases Nat.lt_or_ge 0 m.val with hpos | hzero
  · have hone : m.val = 1 := by omega
    rw [movementTicks_length hw hpos _ _ (idle_constant m w m.val), hone, hits_one] at htick
    exact absurd htick Nat.zero_ne_one
  · have heq : m.val = 0 := by omega
    rw [heq] at htick
    exact absurd htick Nat.zero_ne_one

theorem RatesRight.two_le_wheel (h : RatesRight hw m w) : 2 ≤ w.val := by
  have hm := h.two_le_mouse
  have hconstant := idle_constant m w (m.val * w.val)
  have hticks := movementTicks_length hw (by omega) _ mouseStateInit hconstant
  rw [List.length_replicate, hits_mul hm] at hticks
  have hreport := h.wheels _ _ hconstant hticks
  by_contra hlt
  rcases Nat.lt_or_ge 0 w.val with hpos | hzero
  · have hone : w.val = 1 := by omega
    rw [wheelReports_length hpos _ _ hconstant, hone, hits_one] at hreport
    exact absurd hreport Nat.zero_ne_one
  · have hle := wheelReports_length_le hw mouseStateInit (List.replicate (m.val * w.val) (idleCall m w))
    omega

/-- In twice the product of the dividers, every axis is reported twice. -/
theorem two_le_axisSteps (hm : 2 ≤ m.val) (hwheel : 2 ≤ w.val) (hdiv : ConstantDividers m w calls)
    (hlen : 2 * (m.val * w.val) ≤ calls.length) (axis : Axis) (st : MouseState) :
    2 ≤ (axisSteps hw axis st calls).length := by
  have hticks : 2 * w.val ≤ (movementTicks hw st calls).length := by
    rw [movementTicks_length hw (by omega) calls st hdiv, ← hits_mul hm (2 * w.val) st.cntMove.val]
    refine hits_le ?_ _
    rw [Nat.mul_left_comm]
    exact hlen
  have hwheels : 2 ≤ (wheelReports hw st calls).length := by
    rw [wheelReports_length (by omega) calls st hdiv, ← hits_mul hwheel 2 st.cntWheel.val]
    refine hits_le ?_ _
    rw [Nat.mul_comm]
    exact hticks
  cases axis with
  | x | y => exact Nat.le_trans (by omega) hticks
  | hWheel | vWheel => exact hwheels

theorem call_mem : ∀ (calls : List MouseCall) (st : MouseState), ∀ step ∈ mouseRun hw st calls,
    step.call ∈ calls
  | [], _, _, hstep => nomatch hstep
  | call :: calls, st, step, hstep => by
    rcases List.mem_cons.mp hstep with rfl | hstep
    · exact List.mem_cons_self
    · exact List.mem_cons_of_mem _ (call_mem calls _ step hstep)

/-- Of two reports of a held key, one moves. -/
theorem exists_moves {dir : Direction} (hheld : HeldAt hw dir (axisSteps hw dir.axis st calls))
    (hlen : 2 ≤ (axisSteps hw dir.axis st calls).length) :
    ∃ step ∈ axisSteps hw dir.axis st calls, step.report.get dir.axis ≠ 0 := by
  have hsums := displacements_eq calls st hheld
  by_contra hnone
  push Not at hnone
  have hzero : ∀ d ∈ displacements dir (axisSteps hw dir.axis st calls), d = 0 := by
    intro d hd
    obtain ⟨step, hstep, rfl⟩ := List.mem_map.mp hd
    rw [hnone step hstep]
    exact Int.mul_zero _
  rw [hsums] at hzero
  rcases hsteps : axisSteps hw dir.axis st calls with _ | ⟨first, _ | ⟨second, rest⟩⟩
  · rw [hsteps, List.length_nil] at hlen
    omega
  · rw [hsteps, List.length_singleton] at hlen
    omega
  · rw [hsteps] at hzero hheld
    simp only [pushes, List.map_cons, wrappedSums] at hzero
    obtain ⟨hpos, hle⟩ := keysOf_mem (hheld second (List.mem_cons_of_mem _ List.mem_cons_self))
    have hcount : keystateCount = 14 := rfl
    have hlowest : dir.lowest = -128 ∨ dir.lowest = -127 := by
      unfold Direction.lowest
      split
      · exact .inl rfl
      · exact .inr rfl
    have hfirst := hzero _ List.mem_cons_self
    have hsecond := hzero _ (List.mem_cons_of_mem _ List.mem_cons_self)
    rw [hfirst, Int.zero_add, wrapFrom_of_mem (by omega) (by omega)] at hsecond
    omega

/-- **The rates are right** exactly for dividers from 2 on. -/
theorem ratesRight_iff (hw : KeystateHardware) (m w : Byte) :
    RatesRight hw m w ↔ 2 ≤ m.val ∧ 2 ≤ w.val := by
  constructor
  · intro h
    exact ⟨h.two_le_mouse, h.two_le_wheel⟩
  · rintro ⟨hm, hwheel⟩
    refine ⟨?_, ?_, ?_⟩
    · intro st calls hdiv hlen
      rw [movementTicks_length hw (by omega) calls st hdiv, hlen, hits_period hm]
    · intro st calls hdiv hlen
      rw [wheelReports_length (by omega) calls st hdiv, hlen, hits_period hwheel]
    · intro dir st calls hdiv hholds hlen
      have hheld : HeldAt hw dir (axisSteps hw dir.axis st calls) := fun step hstep =>
        hholds _ (call_mem calls st step (List.mem_of_mem_filter hstep))
      obtain ⟨step, hstep, hne⟩ := exists_moves hheld (two_le_axisSteps hm hwheel hdiv hlen dir.axis st)
      exact ⟨step, List.mem_of_mem_filter hstep, hne⟩

/-- PROGRAM is held while the key of the chord is pressed four times; then both are released.  The chord
    has counted the wheel divider down to 1. -/
theorem divider_one_stops_wheel :
    CanSave k80csKeyboard 25 1 ∧ ¬ RatesRight k80csKeyboard.keystate 25 1 := by
  constructor
  · have hsaved : let its :=
          [[0, 54], [0], [0, 54], [0], [0, 54], [0], [0, 54], []].map k80csIteration
        let kb := runLoop k80csKeyboard k80csReset its
        kb.settings.mouseDiv = 25 ∧ kb.settings.wheelDiv = 1 := by
      decide +kernel
    exact ⟨_, _, hsaved⟩
  · intro h
    exact absurd h.two_le_wheel (by decide)

end KeyboardFirmware
