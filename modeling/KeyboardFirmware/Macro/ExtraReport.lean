/-
  `extrareport.c`, as far as playback uses it: toggling a key in the extra report, and adding the
  extra report to the report that is sent.

  The extra report has a bit for each modifier and six places for other keys.  `Shows r codes` says
  that it shows exactly the codes of a list without repetitions; toggling a code adds it to the list
  or takes it out (`Shows.press`, `Shows.release`), as long as there is a place for it.
-/
import KeyboardFirmware.Lib.Places
import KeyboardFirmware.Macro.Hardware
import KeyboardFirmware.Vm.Interpreter

namespace KeyboardFirmware

open Lib
open Compiler (Word8)
open Vm (ExtraKeyboardReport NO_KEY)

/-- `EXTRA_REPORT_KEY_COUNT`. -/
def extraReportKeyCount : Nat := 6

/-- `KEYBOARDREPORT_KEY_COUNT`. -/
def keyboardReportKeyCount : Nat := 6

/-- `HID_KEYBOARD_SC_LEFT_CONTROL`, the first of the modifiers. -/
def leftControl : HidKeycode := 0xE0

/-- `SPECIAL_HID_KEYS_START`, behind the last of the modifiers. -/
def specialHidKeysStart : HidKeycode := 0xE8

/-- A code as the byte in a report. -/
def hidByte (c : HidKeycode) : Word8 := BitVec.ofFin c

/-- `ExtraKeyboardReport_toggle`: the search for the key runs from the last place to the first, and
    so ends with the first free place when it has not found it. -/
def Vm.ExtraKeyboardReport.toggle (r : ExtraKeyboardReport) (key : Word8) : ExtraKeyboardReport :=
  if ExtraKeyboardReport.leftControl ≤ key then
    { r with modifiers :=
        r.modifiers ^^^ ((1 : Word8) <<< (key - ExtraKeyboardReport.leftControl).toNat) }
  else if key ∈ r.keys then { r with keys := (r.keys.reverse.replace key NO_KEY).reverse }
  else { r with keys := r.keys.replace NO_KEY key }

/-- The fields of `KeyboardReport_Data_t` that are filled; 0 marks the places of `KeyCode` that are
    not. -/
structure KeyboardReport where
  modifier : Word8
  keyCode : List Word8

/-- A report that nothing has been filled into. -/
def emptyReport : KeyboardReport := ⟨0, List.replicate keyboardReportKeyCount 0⟩

/-- The loop of `ExtraKeyboardReport_append` over the keys of the extra report: `reportStart` places
    were in use before it, `reportNext` are now. -/
def appendKeys (reportStart : Nat) : List Word8 → Nat → List Word8 → List Word8
  | [], _, keyCode => keyCode
  | key :: keys, reportNext, keyCode =>
    if reportNext < keyboardReportKeyCount then
      if key = NO_KEY then appendKeys reportStart keys reportNext keyCode
      else if key ∈ keyCode.take reportStart then appendKeys reportStart keys reportNext keyCode
      else appendKeys reportStart keys (reportNext + 1) (keyCode.set reportNext key)
    else keyCode

/-- `ExtraKeyboardReport_append`. -/
def Vm.ExtraKeyboardReport.append (extra : ExtraKeyboardReport) (report : KeyboardReport) :
    KeyboardReport :=
  let reportStart := report.keyCode.findIdx fun key => key = 0
  { modifier := report.modifier ||| extra.modifiers
    keyCode := appendKeys reportStart extra.keys reportStart report.keyCode }

/-- The report carries a code: as the bit of a modifier, or in one of its places, where 0 is no key. -/
def KeyboardReport.Carries (report : KeyboardReport) (c : HidKeycode) : Prop :=
  if leftControl ≤ c then report.modifier.getLsbD (c.val - leftControl.val) = true
  else c ≠ 0 ∧ hidByte c ∈ report.keyCode

/-! ## Codes and bytes -/

@[simp] theorem hidByte_inj {c d : HidKeycode} : hidByte c = hidByte d ↔ c = d := by
  rw [hidByte, hidByte, BitVec.ofFin.injEq]

theorem leftControl_le_hidByte (c : HidKeycode) :
    ExtraKeyboardReport.leftControl ≤ hidByte c ↔ leftControl ≤ c := Iff.rfl

theorem hidByte_ne_noKey {c : HidKeycode} (h : ¬ leftControl ≤ c) : hidByte c ≠ NO_KEY := by
  intro heq
  refine h ?_
  obtain rfl : c = 0xFF := hidByte_inj.mp (show hidByte c = hidByte 0xFF from heq)
  decide

/-- The bit of a modifier. -/
theorem modifier_index {c : HidKeycode} (h : leftControl ≤ c) :
    (hidByte c - ExtraKeyboardReport.leftControl).toNat = c.val - leftControl.val := by
  have hle : ExtraKeyboardReport.leftControl ≤ hidByte c := h
  rw [BitVec.toNat_sub_of_le hle]
  rfl

/-! ## What the extra report shows -/

/-- The codes that need a place of their own. -/
def placed (codes : List HidKeycode) : List HidKeycode := codes.filter fun c => ¬ leftControl ≤ c

/-- The extra report shows exactly the codes of the list. -/
structure Shows (r : ExtraKeyboardReport) (codes : List HidKeycode) : Prop where
  length : r.keys.length = extraReportKeyCount
  keys : (occupied NO_KEY r.keys).Perm ((placed codes).map hidByte)
  modifiers : ∀ c, leftControl ≤ c → c < specialHidKeysStart →
    (r.modifiers.getLsbD (c.val - leftControl.val) = true ↔ c ∈ codes)

theorem shows_clear : Shows ExtraKeyboardReport.clear [] where
  length := rfl
  keys := by
    show (occupied NO_KEY (List.replicate 6 NO_KEY)).Perm []
    rw [occupied_replicate]
  modifiers := fun c _ _ => by simp [ExtraKeyboardReport.clear]

/-- Only which codes are shown matters, not their order. -/
theorem Shows.perm {r : ExtraKeyboardReport} {codes codes' : List HidKeycode} (h : Shows r codes)
    (hperm : codes.Perm codes') : Shows r codes' where
  length := h.length
  keys := h.keys.trans ((hperm.filter _).map _)
  modifiers := fun c h1 h2 => by rw [h.modifiers c h1 h2, hperm.mem_iff]

/-- A toggled modifier changes its own bit and no other. -/
theorem toggle_modifier (m : Word8) {c d : HidKeycode} (hc : leftControl ≤ c)
    (hd : leftControl ≤ d) (hlt : d < specialHidKeysStart) :
    (m ^^^ ((1 : Word8) <<< (hidByte c - ExtraKeyboardReport.leftControl).toNat)).getLsbD
        (d.val - leftControl.val) =
      (m.getLsbD (d.val - leftControl.val) ^^ decide (d = c)) := by
  have hc' : 224 ≤ c.val := hc
  have hd' : 224 ≤ d.val := hd
  have hlt' : d.val < 232 := hlt
  have hval : (leftControl : HidKeycode).val = 224 := rfl
  have hbit : ((1 : Word8) <<< (c.val - 224)).getLsbD (d.val - 224) = decide (d = c) := by
    rw [BitVec.getLsbD_shiftLeft, show (1 : Word8) = 1#8 from rfl, Bool.eq_iff_iff]
    simp only [BitVec.getLsbD_one, Bool.and_eq_true, decide_eq_true_eq, Bool.not_eq_true',
      decide_eq_false_iff_not, Fin.ext_iff]
    omega
  rw [BitVec.getLsbD_xor, modifier_index hc, hval, hbit]

variable {r : ExtraKeyboardReport} {codes : List HidKeycode} {c : HidKeycode}

theorem Shows.mem_keys (h : Shows r codes) (hc : ¬ leftControl ≤ c) :
    hidByte c ∈ r.keys ↔ c ∈ codes := by
  have hocc : hidByte c ∈ r.keys ↔ hidByte c ∈ occupied NO_KEY r.keys := by
    rw [mem_occupied]
    exact (and_iff_left (hidByte_ne_noKey hc)).symm
  rw [hocc, h.keys.mem_iff, List.mem_map]
  constructor
  · rintro ⟨d, hd, heq⟩
    obtain rfl := hidByte_inj.mp heq
    exact (List.mem_filter.mp hd).1
  · intro hmem
    exact ⟨c, List.mem_filter.mpr ⟨hmem, by simpa using hc⟩, rfl⟩

/-- **A code that is not shown**: toggling it shows it, when there is a place for it. -/
theorem Shows.press (h : Shows r codes) (hnew : c ∉ codes)
    (hroom : (placed (c :: codes)).length ≤ extraReportKeyCount) :
    Shows (r.toggle (hidByte c)) (c :: codes) := by
  by_cases hc : leftControl ≤ c
  · rw [ExtraKeyboardReport.toggle, if_pos ((leftControl_le_hidByte c).mpr hc)]
    refine ⟨h.length, ?_, fun d h1 h2 => ?_⟩
    · have hplaced : placed (c :: codes) = placed codes :=
        List.filter_cons_of_neg (by simpa using hc)
      rw [hplaced]
      exact h.keys
    · rw [toggle_modifier _ hc h1 h2]
      have hbit := h.modifiers d h1 h2
      by_cases hd : d = c
      · subst hd
        simp [Bool.eq_false_iff.mpr (mt hbit.mp hnew)]
      · simp [hd, hbit]
  · have hplaced : placed (c :: codes) = c :: placed codes :=
      List.filter_cons_of_pos (by simpa using hc)
    have hfree : NO_KEY ∈ r.keys := by
      refine free_mem_of_lt ?_
      rw [h.keys.length_eq, List.length_map, h.length]
      rw [hplaced, List.length_cons] at hroom
      omega
    rw [ExtraKeyboardReport.toggle, if_neg (mt (leftControl_le_hidByte c).mp hc), if_neg (mt (h.mem_keys hc).mp hnew)]
    refine ⟨?_, ?_, fun d h1 h2 => ?_⟩
    · show (r.keys.replace NO_KEY (hidByte c)).length = _
      rw [List.length_replace, h.length]
    · rw [hplaced]
      exact (occupied_put (hidByte_ne_noKey hc) hfree).trans (h.keys.cons _)
    · have hd : d ≠ c := fun heq => hc (heq ▸ h1)
      simp [h.modifiers d h1 h2, hd]

/-- **A code that is shown**: toggling it hides it. -/
theorem Shows.release (h : Shows r (c :: codes)) (hnew : c ∉ codes) :
    Shows (r.toggle (hidByte c)) codes := by
  by_cases hc : leftControl ≤ c
  · have hplaced : placed (c :: codes) = placed codes :=
      List.filter_cons_of_neg (by simpa using hc)
    rw [ExtraKeyboardReport.toggle, if_pos ((leftControl_le_hidByte c).mpr hc)]
    refine ⟨h.length, ?_, fun d h1 h2 => ?_⟩
    · rw [← hplaced]
      exact h.keys
    · rw [toggle_modifier _ hc h1 h2]
      have hbit := h.modifiers d h1 h2
      by_cases hd : d = c
      · subst hd
        simp [hbit.mpr List.mem_cons_self, hnew]
      · simp [hd, hbit]
  · have hplaced : placed (c :: codes) = c :: placed codes :=
      List.filter_cons_of_pos (by simpa using hc)
    have hmem : hidByte c ∈ r.keys := (h.mem_keys hc).mpr List.mem_cons_self
    rw [ExtraKeyboardReport.toggle, if_neg (mt (leftControl_le_hidByte c).mp hc), if_pos hmem]
    refine ⟨?_, ?_, fun d h1 h2 => ?_⟩
    · show (r.keys.reverse.replace (hidByte c) NO_KEY).reverse.length = _
      rw [List.length_reverse, List.length_replace, List.length_reverse, h.length]
    · have hkeys := h.keys
      rw [hplaced] at hkeys
      show (occupied NO_KEY (r.keys.reverse.replace (hidByte c) NO_KEY).reverse).Perm _
      rw [occupied_reverse]
      refine (List.reverse_perm _).trans (List.Perm.cons_inv (a := hidByte c) ?_)
      refine (occupied_free (hidByte_ne_noKey hc) (List.mem_reverse.mpr hmem)).symm.trans ?_
      rw [occupied_reverse]
      exact (List.reverse_perm _).trans hkeys
    · have hd : d ≠ c := fun heq => hc (heq ▸ h1)
      rw [h.modifiers d h1 h2]
      simp [hd]

/-! ## What the sent report carries -/

/-- Into a report with `front` in use and the rest free, all keys of the extra report go one behind
    the other, if there is room. -/
theorem appendKeys_eq : ∀ (keys front : List Word8) (room : Nat),
    front.length + room = keyboardReportKeyCount → (occupied NO_KEY keys).length ≤ room →
    appendKeys 0 keys front.length (front ++ List.replicate room 0) =
      front ++ occupied NO_KEY keys ++
        List.replicate (room - (occupied NO_KEY keys).length) 0 := by
  intro keys
  induction keys with
  | nil =>
    intro front room _ _
    show front ++ List.replicate room 0 = front ++ [] ++ List.replicate (room - 0) 0
    rw [List.append_nil, Nat.sub_zero]
  | cons key keys ih =>
    intro front room hlen hroom
    rw [appendKeys]
    by_cases hkey : key = NO_KEY
    · subst hkey
      rw [occupied_cons_free] at hroom ⊢
      rw [if_pos rfl, ih front room hlen hroom]
      split
      · rfl
      · -- no room is needed, as no key is left
        next hfull =>
        have hzero : room = 0 := by omega
        subst hzero
        have hnil : occupied NO_KEY keys = [] := List.length_eq_zero_iff.mp (by omega)
        rw [hnil]
        simp
    · rw [occupied_cons_of_ne hkey] at hroom ⊢
      obtain ⟨room, rfl⟩ : ∃ m, room = m + 1 := ⟨room - 1, by simp at hroom; omega⟩
      rw [if_pos (by omega), if_neg hkey, List.take_zero, if_neg List.not_mem_nil]
      have hset : (front ++ List.replicate (room + 1) 0).set front.length key =
          (front ++ [key]) ++ List.replicate room 0 := by
        rw [List.set_append_right _ _ le_rfl, Nat.sub_self, List.replicate_succ, List.set_cons_zero,
          List.append_assoc]
        rfl
      have hnext : front.length + 1 = (front ++ [key]).length := by simp
      rw [List.length_cons] at hroom ⊢
      rw [hset, hnext, ih (front ++ [key]) room (by simp; omega) (by omega)]
      rw [Nat.add_sub_add_right]
      simp

/-- **The report that is sent** carries exactly the codes that the extra report shows. -/
theorem Shows.carries (h : Shows r codes) (hspecial : ∀ d ∈ codes, d < specialHidKeysStart)
    (c : HidKeycode) : (r.append emptyReport).Carries c ↔ c ≠ 0 ∧ c ∈ codes := by
  rw [KeyboardReport.Carries]
  by_cases hc : leftControl ≤ c
  · have hmodifier : (r.append emptyReport).modifier = r.modifiers := BitVec.zero_or
    have hne : c ≠ 0 := by
      rintro rfl
      exact absurd hc (by decide)
    rw [if_pos hc, hmodifier, and_iff_right hne]
    by_cases hlt : c < specialHidKeysStart
    · exact h.modifiers c hc hlt
    · have hval : 232 ≤ c.val := Nat.le_of_not_lt hlt
      refine iff_of_false ?_ fun hmem => hlt (hspecial c hmem)
      rw [BitVec.getLsbD_of_ge _ _ (by show 8 ≤ c.val - 224; omega)]
      exact Bool.false_ne_true
  · have hle : (occupied NO_KEY r.keys).length ≤ keyboardReportKeyCount := by
      have hfilter : (occupied NO_KEY r.keys).length ≤ r.keys.length := List.length_filter_le ..
      rw [h.length] at hfilter
      exact hfilter
    have hkeys : (r.append emptyReport).keyCode = occupied NO_KEY r.keys ++
        List.replicate (keyboardReportKeyCount - (occupied NO_KEY r.keys).length) 0 :=
      appendKeys_eq r.keys [] keyboardReportKeyCount rfl hle
    rw [if_neg hc, hkeys]
    refine and_congr_right fun hne => ?_
    have hzero : hidByte c ∉ List.replicate
        (keyboardReportKeyCount - (occupied NO_KEY r.keys).length) 0 := fun hmem =>
      hne (hidByte_inj.mp (List.eq_of_mem_replicate hmem))
    rw [List.mem_append, or_iff_left hzero, mem_occupied, h.mem_keys hc]
    exact and_iff_left (hidByte_ne_noKey hc)

end KeyboardFirmware
