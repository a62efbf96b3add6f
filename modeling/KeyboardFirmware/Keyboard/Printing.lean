/-
  `printing.c`: messages that the keyboard types.

  While the main loop is in `STATE_PRINTING`, every other report holds the keys of the next character; the
  reports between them are empty.  The loop looks for the end of the message at the state, in front of the
  update that generates a report, but not in the iteration in which a handler enters the state.

  A message is typed as it is, except that the grave accent and the tilde are exchanged, that a key which
  is held behind a free place of the last report is not typed again, and that an empty message types a
  question mark when the loop has not looked (`printing_types_iff`).
-/
import KeyboardFirmware.Lib.Memory
import KeyboardFirmware.Macro.ExtraReport

namespace KeyboardFirmware.Printing

open Lib
open Compiler (Word8)

/-- `storage_type`. -/
inductive StorageType where
  | sram
  | avrPgm
  | avrEeprom
  | i2cEeprom
  | spiEeprom
  | flash
  deriving DecidableEq

/-- The memories that a message can lie in. -/
structure Memories where
  sram : Nat → Word8
  avrPgm : Nat → Word8

/-- A memory of these; the others are not supported. -/
def Memories.of (m : Memories) : StorageType → Nat → Word8
  | .sram => m.sram
  | .avrPgm => m.avrPgm
  | _ => fun _ => 0

/-! ## `char_to_keys` -/

/-- `HID_KEYBOARD_MODIFIER_LEFTSHIFT`. -/
def leftShift : Word8 := 0x02

/-- `HID_KEYBOARD_SC_A`. -/
def scA : Word8 := 0x04

/-- `HID_KEYBOARD_SC_SLASH_AND_QUESTION_MARK`. -/
def scSlash : Word8 := 0x38

/-- The code of a character. -/
def charByte (c : Char) : Word8 := BitVec.ofNat 8 c.toNat

/-- The cases of the `switch`: the character, its key, and whether it needs a shift. -/
def charCases : List (Char × Word8 × Bool) :=
  [(' ', 0x2c, false), ('!', 0x1e, true), ('\x22', 0x34, true), ('#', 0x20, true), ('$', 0x21, true),
   ('%', 0x22, true), ('&', 0x24, true), ('\x27', 0x34, false), ('(', 0x26, true), (')', 0x27, true),
   ('*', 0x25, true), ('+', 0x2e, true), (',', 0x36, false), ('-', 0x2d, false), ('.', 0x37, false),
   ('/', scSlash, false), ('0', 0x27, false), ('1', 0x1e, false), ('2', 0x1f, false), ('3', 0x20, false),
   ('4', 0x21, false), ('5', 0x22, false), ('6', 0x23, false), ('7', 0x24, false), ('8', 0x25, false),
   ('9', 0x26, false), (':', 0x33, true), (';', 0x33, false), ('<', 0x36, true), ('=', 0x2e, false),
   ('>', 0x37, true), ('?', scSlash, true), ('@', 0x1f, true), ('[', 0x2f, false), ('\x5c', 0x31, false),
   (']', 0x30, false), ('^', 0x23, true), ('_', 0x2d, true), ('\x60', 0x35, true), ('\x7b', 0x2f, true),
   ('|', 0x31, true), ('\x7d', 0x30, true), ('~', 0x35, false), ('\n', 0x28, false), ('\t', 0x2b, false)]

/-- `char_to_keys`: the key and the modifier. -/
def charToKeys (nextchar : Word8) : Word8 × Word8 :=
  let l := nextchar ||| 0x20
  if charByte 'a' ≤ l ∧ l ≤ charByte 'z' then
    (scA + (l - charByte 'a'), if nextchar &&& 0x20 = 0 then leftShift else 0)
  else
    match charCases.find? fun entry => charByte entry.1 = nextchar with
    | some (_, key, shift) => (key, if shift then leftShift else 0)
    | none => (scSlash, leftShift)

/-! ## The state -/

/-- What the printing state works on. -/
structure Printer where
  /-- `print_buffer`. -/
  printBuffer : Nat
  /-- `print_buffer_type`. -/
  printBufferType : StorageType
  /-- `PrevKeyboardHIDReportBuffer`. -/
  prevReport : KeyboardReport
  /-- The main loop is in `STATE_PRINTING`. -/
  printing : Bool
  /-- The reports generated so far. -/
  sent : List KeyboardReport

/-- `printing_set_buffer`, and the state is entered. -/
def Printer.entered (buf : Nat) (typ : StorageType) (prevReport : KeyboardReport) : Printer :=
  ⟨buf, typ, prevReport, true, []⟩

namespace Printer

variable (m : Memories) (p : Printer)

/-- `print_buffer_get`. -/
def get : Word8 := m.of p.printBufferType p.printBuffer

/-- The last report was a key. -/
def Pressed (report : KeyboardReport) : Prop := report.modifier ≠ 0 ∨ report.keyCode.headD 0 ≠ 0

instance (report : KeyboardReport) : Decidable (Pressed report) := inferInstanceAs (Decidable (_ ∨ _))

/-- `printing_Fill_KeyboardReport`, into an empty report. -/
def fillKeyboardReport : Printer × KeyboardReport :=
  if Pressed p.prevReport then (p, emptyReport)
  else
    let keys := charToKeys (p.get m)
    ({ p with printBuffer := p.printBuffer + 1 }, ⟨keys.2, emptyReport.keyCode.set 0 keys.1⟩)

/-- `USB_Perform_Update`: a report is generated when the last one has been taken. -/
def update (ready : Bool) : Printer :=
  if ready then
    let filled := p.fillKeyboardReport m
    { filled.1 with prevReport := filled.2, sent := p.sent ++ [filled.2] }
  else p

/-- The state in the switch of the main loop: `printing_buffer_empty`. -/
def dispatch : Printer := if p.get m = 0 then { p with printing := false } else p

/-- An iteration of the main loop, as long as the state is not left. -/
def iteration (ready : Bool) : Printer :=
  if p.printing then
    if (p.dispatch m).printing then (p.dispatch m).update m ready else p.dispatch m
  else p

/-- Some iterations, from the one in which the state is entered on; `looked` says whether the switch comes
    behind that. -/
def run (looked : Bool) : List Bool → Printer
  | [] => p
  | ready :: rest =>
    rest.foldl (fun p ready => p.iteration m ready) (if looked then p.iteration m ready else p.update m ready)

end Printer

/-! ## The host -/

/-- The keys of a US keyboard that type characters, in runs from a first key on. -/
def usKeys : Bool → List (Nat × String)
  | false => [(0x04, "abcdefghijklmnopqrstuvwxyz1234567890\n"), (0x2b, "\t -=[]\\"), (0x33, ";'`,./")]
  | true => [(0x04, "ABCDEFGHIJKLMNOPQRSTUVWXYZ!@#$%^&*()\n"), (0x2b, "\t _+\x7b\x7d|"), (0x33, ":\"~<>?")]

/-- What a key types on a US keyboard: nothing but shift may be held. -/
def usText (modifier key : Word8) : Option Char :=
  if modifier &&& 0xdd ≠ 0 then none
  else (usKeys (modifier ≠ 0)).findSome? fun run =>
    if run.1 ≤ key.toNat then run.2.toList[key.toNat - run.1]? else none

/-- What a report types: its keys that were not in the report before. -/
def strokes (before after : KeyboardReport) : List Char :=
  (after.keyCode.filter fun key => key ≠ 0 ∧ key ∉ before.keyCode).filterMap (usText after.modifier)

/-- What some reports type. -/
def typed : KeyboardReport → List KeyboardReport → List Char
  | _, [] => []
  | before, report :: reports => strokes before report ++ typed report reports

/-! ## What is typed -/

/-- The message lies in the memory. -/
def Stored (m : Memories) (typ : StorageType) (buf : Nat) (s : List Char) : Prop :=
  Holds (m.of typ) buf (s.map charByte ++ [0])

def Printable (c : Char) : Prop := 0x20 ≤ c.toNat ∧ c.toNat ≤ 0x7e

instance (c : Char) : Decidable (Printable c) := inferInstanceAs (Decidable (_ ∧ _))

/-- The message is typed exactly until the state is left, and it is left when enough reports have been
    taken. -/
def TypesExactly (m : Memories) (p : Printer) (looked : Bool) (s : List Char) : Prop :=
  ∀ readies : List Bool, typed p.prevReport (p.run m looked readies).sent <+: s ∧
    ((p.run m looked readies).printing = false → typed p.prevReport (p.run m looked readies).sent = s) ∧
    (2 * s.length + 2 ≤ readies.count true → (p.run m looked readies).printing = false)

/-- No key of the message is exchanged or still held; and an empty message is not read, or its question
    mark is still held and the next byte in the memory ends it. -/
def PrintsRight (m : Memories) (p : Printer) (looked : Bool) : List Char → Prop
  | [] => looked = true ∨ Printer.Pressed p.prevReport ∨
      (scSlash ∈ p.prevReport.keyCode ∧ m.of p.printBufferType (p.printBuffer + 1) = 0)
  | c :: s => ('\x60' ∉ c :: s ∧ '~' ∉ c :: s) ∧
      (Printer.Pressed p.prevReport ∨ (charToKeys (charByte c)).1 ∉ p.prevReport.keyCode)

/-! ## The keys -/

/-- What is typed for a character: the grave accent and the tilde are exchanged. -/
def exchanged (c : Char) : Char := if c = '\x60' then '~' else if c = '~' then '\x60' else c

theorem exchanged_eq_iff (c : Char) : exchanged c = c ↔ c ≠ '\x60' ∧ c ≠ '~' := by
  unfold exchanged
  split
  · next h => simp [h]
  · next h =>
    split
    · next h' => simp [h']
    · next h' => simp [h, h']

/-- The report that presses the key of a character. -/
def pressReport (nextchar : Word8) : KeyboardReport :=
  ⟨(charToKeys nextchar).2, emptyReport.keyCode.set 0 (charToKeys nextchar).1⟩

/-- Every byte has a key, and the key types something. -/
theorem charToKeys_types (b : Word8) :
    (charToKeys b).1 ≠ 0 ∧ (usText (charToKeys b).2 (charToKeys b).1).isSome = true := by
  have hall : ∀ i < 256, (charToKeys (BitVec.ofNat 8 i)).1 ≠ 0 ∧
      (usText (charToKeys (BitVec.ofNat 8 i)).2 (charToKeys (BitVec.ofNat 8 i)).1).isSome = true := by
    decide +kernel
  have hb := hall b.toNat b.isLt
  rwa [BitVec.ofNat_toNat, BitVec.setWidth_eq] at hb

theorem printable_cases {P : Char → Prop} (h : ∀ i < 95, P (Char.ofNat (0x20 + i))) {c : Char}
    (hc : Printable c) : P c := by
  have hi := h (c.toNat - 0x20) (by
    have := hc.1
    have := hc.2
    omega)
  rwa [Nat.add_sub_cancel' hc.1, Char.ofNat_toNat] at hi

/-- What the key of a printable character types. -/
theorem usText_charToKeys {c : Char} (hc : Printable c) :
    usText (charToKeys (charByte c)).2 (charToKeys (charByte c)).1 = some (exchanged c) :=
  printable_cases (P := fun c =>
    usText (charToKeys (charByte c)).2 (charToKeys (charByte c)).1 = some (exchanged c)) (by decide +kernel) hc

theorem charByte_ne_zero {c : Char} (hc : Printable c) : charByte c ≠ 0 :=
  printable_cases (P := fun c => charByte c ≠ 0) (by decide +kernel) hc

theorem pressed_pressReport (b : Word8) : Printer.Pressed (pressReport b) := .inr (charToKeys_types b).1

theorem not_pressed_empty : ¬ Printer.Pressed emptyReport := by decide

theorem strokes_empty (before : KeyboardReport) : strokes before emptyReport = [] := by
  simp [strokes, emptyReport]

/-- A press types the character, unless its key was down. -/
theorem strokes_press (before : KeyboardReport) (b : Word8) : strokes before (pressReport b) =
    if (charToKeys b).1 ∈ before.keyCode then []
    else (usText (charToKeys b).2 (charToKeys b).1).toList := by
  have hkeys : (pressReport b).keyCode = (charToKeys b).1 :: List.replicate 5 0 := rfl
  have hrest : (List.replicate 5 (0 : Word8)).filter (fun key => key ≠ 0 ∧ key ∉ before.keyCode) = [] := by
    simp
  rw [strokes, hkeys, List.filter_cons, hrest]
  by_cases hmem : (charToKeys b).1 ∈ before.keyCode
  · rw [if_pos hmem, if_neg (by simp [hmem])]
    rfl
  · rw [if_neg hmem, if_pos (by simpa [hmem] using (charToKeys_types b).1)]
    show ([(charToKeys b).1].filterMap (usText (charToKeys b).2)) = _
    rw [List.filterMap_cons]
    cases usText (charToKeys b).2 (charToKeys b).1 <;> rfl

/-- One report more. -/
theorem typed_concat (reports : List KeyboardReport) (r : KeyboardReport) : ∀ before : KeyboardReport,
    typed before (reports ++ [r]) = typed before reports ++ strokes (reports.getLastD before) r := by
  induction reports with
  | nil =>
    intro before
    exact List.append_nil _
  | cons first reports ih =>
    intro before
    rw [List.cons_append, typed, ih, typed, List.append_assoc, List.getLastD_cons]

/-! ## The main loop -/

namespace Printer

variable {m : Memories} {p : Printer}

/-- A report between two keys. -/
theorem update_down (h : Pressed p.prevReport) :
    p.update m true = { p with prevReport := emptyReport, sent := p.sent ++ [emptyReport] } := by
  simp [update, fillKeyboardReport, h]

/-- A report with a key. -/
theorem update_up (h : ¬ Pressed p.prevReport) : p.update m true =
    { p with
      printBuffer := p.printBuffer + 1
      prevReport := pressReport (p.get m)
      sent := p.sent ++ [pressReport (p.get m)] } := by
  simp [update, fillKeyboardReport, h, pressReport]

theorem update_printing (ready : Bool) : (p.update m ready).printing = p.printing := by
  cases ready with
  | false => rfl
  | true =>
    by_cases hdown : Pressed p.prevReport
    · rw [update_down hdown]
    · rw [update_up hdown]

theorem iteration_left (h : p.printing = false) (ready : Bool) : p.iteration m ready = p := by
  simp [iteration, h]

theorem iteration_end (h : p.printing = true) (hget : p.get m = 0) (ready : Bool) :
    p.iteration m ready = { p with printing := false } := by
  simp [iteration, h, dispatch, hget]

theorem iteration_on (h : p.printing = true) (hget : p.get m ≠ 0) (ready : Bool) :
    p.iteration m ready = p.update m ready := by
  have hdispatch : p.dispatch m = p := if_neg hget
  rw [iteration, if_pos h, hdispatch, if_pos h]

/-- Once the state is left, the printer stays as it is. -/
theorem iterations_left (h : p.printing = false) (readies : List Bool) :
    readies.foldl (fun p ready => p.iteration m ready) p = p := by
  induction readies with
  | nil => rfl
  | cons ready rest ih => rw [List.foldl_cons, iteration_left h, ih]

end Printer

/-! ## A message on its way -/

section Message

variable {m : Memories} {buf : Nat} {typ : StorageType} {prev : KeyboardReport} {s : List Char} {i n : Nat}
  {p : Printer}

/-- The first key is held behind a free place, so that pressing it types nothing. -/
def hiddenKeys (prev : KeyboardReport) (s : List Char) : Nat :=
  if ¬ Printer.Pressed prev ∧ ∃ c ∈ s.head?, (charToKeys (charByte c)).1 ∈ prev.keyCode then 1 else 0

/-- What is typed when `i` keys have been pressed. -/
def expected (prev : KeyboardReport) (s : List Char) (i : Nat) : List Char :=
  ((s.take i).drop (hiddenKeys prev s)).map exchanged

/-- The printer has pressed `i` keys of the message. -/
structure At (buf : Nat) (typ : StorageType) (prev : KeyboardReport) (s : List Char) (i : Nat) (p : Printer) :
    Prop where
  inside : i ≤ s.length
  buffer : p.printBuffer = buf + i
  kind : p.printBufferType = typ
  last : p.prevReport = p.sent.getLastD prev
  shape : (i = 0 ∧ p.prevReport = prev) ∨ (p.prevReport = emptyReport ∧ (i = 0 → Printer.Pressed prev)) ∨
    (0 < i ∧ Printer.Pressed p.prevReport)
  text : typed prev p.sent = expected prev s i

theorem At.entered : At buf typ prev s 0 (Printer.entered buf typ prev) :=
  ⟨Nat.zero_le _, rfl, rfl, rfl, .inl ⟨rfl, rfl⟩, by simp [expected, typed, Printer.entered]⟩

/-- The byte at the printer: a character, or the end. -/
theorem At.get_eq (hs : Stored m typ buf s) (h : At buf typ prev s i p) :
    p.get m = ((s.map charByte)[i]?).getD 0 := by
  have hbyte := hs i (by simpa using Nat.lt_succ_of_le h.inside)
  have hget : p.get m = m.of typ (buf + i) := by rw [Printer.get, h.kind, h.buffer]
  rw [hget, hbyte]
  rcases Nat.lt_or_eq_of_le h.inside with hlt | heq
  · rw [List.getElem_append_left (by simpa using hlt), List.getElem?_eq_getElem (by simpa using hlt)]
    rfl
  · subst heq
    simp

theorem At.get_lt (hs : Stored m typ buf s) (h : At buf typ prev s i p) (hi : i < s.length) :
    p.get m = charByte s[i] := by
  rw [h.get_eq hs, List.getElem?_map, List.getElem?_eq_getElem hi]
  rfl

/-- The loop leaves the state at the end of the message only. -/
theorem At.get_eq_zero (hs : Stored m typ buf s) (hprintable : ∀ c ∈ s, Printable c)
    (h : At buf typ prev s i p) : p.get m = 0 ↔ i = s.length := by
  constructor
  · intro hget
    rcases Nat.lt_or_eq_of_le h.inside with hlt | heq
    · rw [h.get_lt hs hlt] at hget
      exact absurd hget (charByte_ne_zero (hprintable _ (List.getElem_mem hlt)))
    · exact heq
  · intro heq
    rw [h.get_eq hs, heq]
    simp

/-- One character more: it is typed, unless its key is the hidden one. -/
theorem expected_succ (hi : i < s.length) : expected prev s (i + 1) =
    expected prev s i ++ if i < hiddenKeys prev s then [] else [exchanged s[i]] := by
  have htake : s.take (i + 1) = s.take i ++ [s[i]] := by rw [List.take_add_one, List.getElem?_eq_getElem hi]; rfl
  rw [expected, htake, List.drop_append, List.map_append, ← expected, List.length_take_of_le hi.le]
  congr 1
  split
  · next hlt => rw [List.drop_eq_nil_of_le (by simp; omega), List.map_nil]
  · next hge => rw [Nat.sub_eq_zero_of_le (Nat.le_of_not_lt hge), List.drop_zero, List.map_singleton]

/-- The key of the next character is held exactly when it is the hidden one. -/
theorem At.held_iff (h : At buf typ prev s i p) (hi : i < s.length) (hup : ¬ Printer.Pressed p.prevReport) :
    (charToKeys (charByte s[i])).1 ∈ p.prevReport.keyCode ↔ i < hiddenKeys prev s := by
  rcases h.shape with ⟨rfl, hprev⟩ | ⟨hempty, hfirst⟩ | ⟨_, hdown⟩
  · have hhead : s.head? = some s[0] := by rw [List.head?_eq_getElem?, List.getElem?_eq_getElem hi]
    rw [hprev] at hup ⊢
    by_cases hheld : (charToKeys (charByte s[0])).1 ∈ prev.keyCode <;> simp [hiddenKeys, hup, hhead, hheld]
  · have hnot : (charToKeys (charByte s[i])).1 ∉ emptyReport.keyCode := by
      intro hmem
      exact (charToKeys_types (charByte s[i])).1 (List.eq_of_mem_replicate hmem)
    have hhidden : hiddenKeys prev s ≤ i := by
      rcases Nat.eq_zero_or_pos i with rfl | hpos
      · simp [hiddenKeys, hfirst rfl]
      · have hle : hiddenKeys prev s ≤ 1 := by unfold hiddenKeys; split <;> omega
        omega
    rw [hempty]
    exact iff_of_false hnot (Nat.not_lt.mpr hhidden)
  · exact absurd hdown hup

/-- A report between two keys. -/
theorem At.release (h : At buf typ prev s i p) (hdown : Printer.Pressed p.prevReport) :
    At buf typ prev s i (p.update m true) := by
  rw [Printer.update_down hdown]
  refine ⟨h.inside, h.buffer, h.kind, by simp, .inr (.inl ⟨rfl, ?_⟩), ?_⟩
  · intro hi
    rcases h.shape with ⟨_, hprev⟩ | ⟨hempty, _⟩ | ⟨hpos, _⟩
    · rwa [← hprev]
    · rw [hempty] at hdown
      exact absurd hdown not_pressed_empty
    · omega
  · rw [typed_concat, strokes_empty, List.append_nil, h.text]

/-- The report with the next character. -/
theorem At.press (hs : Stored m typ buf s) (hprintable : ∀ c ∈ s, Printable c) (h : At buf typ prev s i p)
    (hi : i < s.length) (hup : ¬ Printer.Pressed p.prevReport) :
    At buf typ prev s (i + 1) (p.update m true) ∧ Printer.Pressed (p.update m true).prevReport := by
  have hdown := pressed_pressReport (charByte s[i])
  rw [Printer.update_up hup, h.get_lt hs hi]
  refine ⟨⟨hi, by simp [h.buffer, Nat.add_assoc], h.kind, by simp, .inr (.inr ⟨Nat.succ_pos i, hdown⟩), ?_⟩,
    hdown⟩
  have htext := usText_charToKeys (hprintable _ (List.getElem_mem hi))
  rw [typed_concat, ← h.last, h.text, strokes_press, expected_succ hi, htext]
  simp only [h.held_iff hi hup, Option.toList_some]

/-- The printer is on its way after `n` reports, or it has left at the end. -/
def OnWay (buf : Nat) (typ : StorageType) (prev : KeyboardReport) (s : List Char) (n : Nat) (p : Printer) :
    Prop :=
  ∃ i, At buf typ prev s i p ∧
    (p.printing = true → n ≤ 2 * i + if Printer.Pressed p.prevReport then 0 else 1) ∧
    (p.printing = false → i = s.length)

theorem At.keeps_printing (h : At buf typ prev s i p) (b : Bool) :
    At buf typ prev s i { p with printing := b } :=
  ⟨h.inside, h.buffer, h.kind, h.last, h.shape, h.text⟩

/-- An iteration of the main loop. -/
theorem OnWay.iteration (hs : Stored m typ buf s) (hprintable : ∀ c ∈ s, Printable c)
    (h : OnWay buf typ prev s n p) (ready : Bool) :
    OnWay buf typ prev s (n + if ready then 1 else 0) (p.iteration m ready) := by
  obtain ⟨i, hat, hcount, hend⟩ := h
  by_cases hprinting : p.printing = true
  · have hcount := hcount hprinting
    by_cases hget : p.get m = 0
    · rw [Printer.iteration_end hprinting hget]
      exact ⟨i, hat.keeps_printing false, nofun, fun _ => (hat.get_eq_zero hs hprintable).mp hget⟩
    · have hi : i < s.length :=
        Nat.lt_of_le_of_ne hat.inside fun heq => hget ((hat.get_eq_zero hs hprintable).mpr heq)
      have hstays : ∀ ready, (p.update m ready).printing = true := fun ready => by
        rw [Printer.update_printing, hprinting]
      rw [Printer.iteration_on hprinting hget]
      cases ready with
      | false => exact ⟨i, hat, fun _ => hcount, fun hleft => absurd (hstays false) (by simp [hleft])⟩
      | true =>
        by_cases hdown : Printer.Pressed p.prevReport
        · refine ⟨i, hat.release hdown, fun _ => ?_, fun hleft => absurd (hstays true) (by simp [hleft])⟩
          have hup : ¬ Printer.Pressed (p.update m true).prevReport := by
            rw [Printer.update_down hdown]
            exact not_pressed_empty
          rw [if_pos hdown] at hcount
          rw [if_neg hup, if_pos rfl]
          omega
        · obtain ⟨hpress, hnow⟩ := hat.press hs hprintable hi hdown
          refine ⟨i + 1, hpress, fun _ => ?_, fun hleft => absurd (hstays true) (by simp [hleft])⟩
          rw [if_neg hdown] at hcount
          rw [if_pos hnow, if_pos rfl]
          omega
  · rw [Printer.iteration_left (by simpa using hprinting)]
    exact ⟨i, hat, fun hp => absurd hp hprinting, hend⟩

/-- Some iterations. -/
theorem OnWay.iterations (hs : Stored m typ buf s) (hprintable : ∀ c ∈ s, Printable c) (readies : List Bool) :
    ∀ {n : Nat} {p : Printer}, OnWay buf typ prev s n p → OnWay buf typ prev s (n + readies.count true)
      (readies.foldl (fun p ready => p.iteration m ready) p) := by
  induction readies with
  | nil =>
    intro n p h
    exact h
  | cons ready rest ih =>
    intro n p h
    have hrest := ih (h.iteration hs hprintable ready)
    rwa [Nat.add_assoc, show (if ready then 1 else 0) + rest.count true = (ready :: rest).count true by
      cases ready <;> simp [Nat.add_comm]] at hrest

/-- The run for a message that is not empty: the switch does not matter, for the first byte does not end
    it. -/
theorem run_onWay (hs : Stored m typ buf s) (hprintable : ∀ c ∈ s, Printable c) (hne : s ≠ []) (looked : Bool)
    (readies : List Bool) : OnWay buf typ prev s (readies.count true)
      ((Printer.entered buf typ prev).run m looked readies) := by
  have hentered : OnWay buf typ prev s 0 (Printer.entered buf typ prev) :=
    ⟨0, .entered, fun _ => Nat.zero_le _, nofun⟩
  have hget : (Printer.entered buf typ prev).get m ≠ 0 := fun hzero =>
    hne (List.eq_nil_of_length_eq_zero ((At.get_eq_zero hs hprintable .entered).mp hzero).symm)
  have hrun : (Printer.entered buf typ prev).run m looked readies =
      readies.foldl (fun p ready => p.iteration m ready) (Printer.entered buf typ prev) := by
    cases readies with
    | nil => rfl
    | cons ready rest =>
      rw [Printer.run, List.foldl_cons, Printer.iteration_on rfl hget, ite_self]
  rw [hrun]
  simpa using hentered.iterations hs hprintable readies

theorem expected_eq_take (hshown : hiddenKeys prev s = 0) (hsame : ∀ c ∈ s, exchanged c = c) (i : Nat) :
    expected prev s i = s.take i := by
  rw [expected, hshown, List.drop_zero]
  have hmap : (s.take i).map exchanged = (s.take i).map id :=
    List.map_congr_left fun c hc => hsame c (List.mem_of_mem_take hc)
  rw [hmap, List.map_id]

/-- A message that is not empty is typed exactly when every key types its character. -/
theorem typesExactly_of_ne_nil (hs : Stored m typ buf s) (hprintable : ∀ c ∈ s, Printable c) (hne : s ≠ [])
    (looked : Bool) : TypesExactly m (Printer.entered buf typ prev) looked s ↔
      hiddenKeys prev s = 0 ∧ ∀ c ∈ s, exchanged c = c := by
  have hrun : ∀ readies, OnWay buf typ prev s (readies.count true)
      ((Printer.entered buf typ prev).run m looked readies) :=
    run_onWay hs hprintable hne looked
  have hleft : ∀ readies, 2 * s.length + 2 ≤ readies.count true →
      ((Printer.entered buf typ prev).run m looked readies).printing = false := by
    intro readies hcount
    obtain ⟨i, hat, hon, _⟩ := hrun readies
    by_contra hprinting
    have hle := hon (by simpa using hprinting)
    have hinside := hat.inside
    split at hle <;> omega
  constructor
  · intro htypes
    have hfull := List.count_replicate_self (a := true) (n := 2 * s.length + 2)
    obtain ⟨_, htext, _⟩ := htypes (List.replicate (2 * s.length + 2) true)
    obtain ⟨i, hat, _, hend⟩ := hrun (List.replicate (2 * s.length + 2) true)
    have hover := hleft _ hfull.ge
    have hsame : expected prev s i = s := hat.text.symm.trans (htext hover)
    rw [hend hover, expected, List.take_length] at hsame
    have hshown : hiddenKeys prev s = 0 := by
      have hlength := congrArg List.length hsame
      have hpos := List.length_pos_iff.mpr hne
      rw [List.length_map, List.length_drop] at hlength
      omega
    rw [hshown, List.drop_zero] at hsame
    exact ⟨hshown, List.map_inj_left.mp (hsame.trans (List.map_id s).symm)⟩
  · rintro ⟨hshown, hsame⟩ readies
    obtain ⟨i, hat, _, hend⟩ := hrun readies
    have htext : typed prev _ = s.take i := hat.text.trans (expected_eq_take hshown hsame i)
    refine ⟨?_, fun hover => ?_, hleft readies⟩
    · show typed prev _ <+: s
      rw [htext]
      exact List.take_prefix i s
    · show typed prev _ = s
      rw [htext, hend hover, List.take_length]

/-! ## The empty message -/

/-- Nothing is typed when the loop stands at the end of the message behind the first report. -/
theorem typesExactly_of_end (q : Printer) (hprinting : q.printing = true) (hend : q.get m = 0)
    (htext : typed prev q.sent = []) (readies : List Bool) :
    typed prev (readies.foldl (fun p ready => p.iteration m ready) q).sent = [] ∧
      (1 ≤ readies.length → (readies.foldl (fun p ready => p.iteration m ready) q).printing = false) := by
  cases readies with
  | nil => exact ⟨htext, nofun⟩
  | cons ready rest =>
    rw [List.foldl_cons, Printer.iteration_end hprinting hend, Printer.iterations_left rfl]
    exact ⟨htext, fun _ => rfl⟩

/-- The first report of an empty message. -/
theorem first_report (hs : Stored m typ buf []) : (Printer.entered buf typ prev).update m true =
    if Printer.Pressed prev then ⟨buf, typ, emptyReport, true, [emptyReport]⟩
    else ⟨buf + 1, typ, pressReport 0, true, [pressReport 0]⟩ := by
  have hget : (Printer.entered buf typ prev).get m = 0 := (At.entered (s := [])).get_eq hs
  by_cases hdown : Printer.Pressed prev
  · rw [if_pos hdown, Printer.update_down hdown]
    rfl
  · rw [if_neg hdown, Printer.update_up hdown, hget]
    rfl

/-- An empty message is typed exactly when the loop looks at it first, or the first report is none of its
    own, or its question mark is hidden and the next byte ends it again. -/
theorem typesExactly_nil (hs : Stored m typ buf []) (looked : Bool) :
    TypesExactly m (Printer.entered buf typ prev) looked [] ↔
      PrintsRight m (Printer.entered buf typ prev) looked [] := by
  have hget : (Printer.entered buf typ prev).get m = 0 := (At.entered (s := [])).get_eq hs
  have hkey : charToKeys 0 = (scSlash, leftShift) := by decide +kernel
  constructor
  · intro htypes
    by_contra hwrong
    simp only [PrintsRight, not_or, not_and_or] at hwrong
    obtain ⟨hlooked, hup, hhidden⟩ := hwrong
    replace hup : ¬ Printer.Pressed prev := hup
    replace hhidden : scSlash ∉ prev.keyCode ∨ m.of typ (buf + 1) ≠ 0 := hhidden
    have hlooked : looked = false := by simpa using hlooked
    by_cases hheld : scSlash ∈ prev.keyCode
    · -- the question mark is hidden, and what lies behind the message is typed
      have hbyte := hhidden.resolve_left (fun h => h hheld)
      obtain ⟨hpre, _⟩ := htypes [true, true, true]
      have hsent : ((Printer.entered buf typ prev).run m looked [true, true, true]).sent =
          [pressReport 0, emptyReport, pressReport (m.of typ (buf + 1))] := by
        rw [hlooked]
        show ((((Printer.entered buf typ prev).update m true).iteration m true).iteration m true).sent = _
        have hget' : ∀ report sent, (Printer.mk (buf + 1) typ report true sent).get m ≠ 0 := fun _ _ => hbyte
        rw [first_report hs, if_neg hup, Printer.iteration_on rfl (hget' _ _),
          Printer.update_down (pressed_pressReport 0), Printer.iteration_on rfl (hget' _ _),
          Printer.update_up not_pressed_empty]
        rfl
      replace hpre : typed prev ((Printer.entered buf typ prev).run m looked _).sent <+: [] := hpre
      rw [hsent, List.prefix_nil] at hpre
      have hrest : strokes emptyReport (pressReport (m.of typ (buf + 1))) = [] := by
        have happend : typed prev [pressReport 0, emptyReport, pressReport (m.of typ (buf + 1))] =
          strokes prev (pressReport 0) ++ (strokes (pressReport 0) emptyReport ++
            (strokes emptyReport (pressReport (m.of typ (buf + 1))) ++ [])) := rfl
        rw [happend] at hpre
        simpa using (List.append_eq_nil_iff.mp (List.append_eq_nil_iff.mp hpre).2).2
      have hnot : (charToKeys (m.of typ (buf + 1))).1 ∉ emptyReport.keyCode := fun hmem =>
        (charToKeys_types _).1 (List.eq_of_mem_replicate hmem)
      rw [strokes_press, if_neg hnot, Option.toList_eq_nil_iff] at hrest
      have hsome := (charToKeys_types (m.of typ (buf + 1))).2
      rw [hrest] at hsome
      exact absurd hsome (by decide)
    · obtain ⟨hpre, _⟩ := htypes [true]
      have hsent : ((Printer.entered buf typ prev).run m looked [true]).sent = [pressReport 0] := by
        rw [hlooked]
        show ((Printer.entered buf typ prev).update m true).sent = _
        rw [first_report hs, if_neg hup]
      replace hpre : typed prev ((Printer.entered buf typ prev).run m looked _).sent <+: [] := hpre
      rw [hsent, List.prefix_nil, typed, strokes_press, hkey, if_neg hheld] at hpre
      exact absurd hpre (by decide)
  · intro hright readies
    cases readies with
    | nil => exact ⟨List.nil_prefix, nofun, nofun⟩
    | cons ready rest =>
      -- behind the first iteration, nothing has been typed, and the state has been left or will be
      have hfirst : typed prev ((Printer.entered buf typ prev).run m looked (ready :: rest)).sent = [] ∧
          (1 ≤ rest.length → ((Printer.entered buf typ prev).run m looked (ready :: rest)).printing = false) := by
        rcases Bool.eq_false_or_eq_true looked with hlooked | hlooked
        · rw [hlooked, Printer.run, if_pos rfl, Printer.iteration_end rfl hget, Printer.iterations_left rfl]
          exact ⟨rfl, fun _ => rfl⟩
        · rw [hlooked, Printer.run, if_neg (by decide)]
          cases ready with
          | false => exact typesExactly_of_end _ rfl hget rfl rest
          | true =>
            rw [first_report hs]
            by_cases hdown : Printer.Pressed prev
            · rw [if_pos hdown]
              refine typesExactly_of_end ⟨buf, typ, emptyReport, true, [emptyReport]⟩ rfl hget ?_ rest
              show strokes prev emptyReport ++ [] = []
              rw [strokes_empty, List.append_nil]
            · rw [if_neg hdown]
              rcases hright with hfalse | hpressed | ⟨hheld, hbyte⟩
              · exact absurd (hlooked.symm.trans hfalse) (by decide)
              · exact absurd hpressed hdown
              · replace hheld : scSlash ∈ prev.keyCode := hheld
                refine typesExactly_of_end ⟨buf + 1, typ, pressReport 0, true, [pressReport 0]⟩ rfl hbyte ?_ rest
                show strokes prev (pressReport 0) ++ [] = []
                rw [strokes_press, hkey, if_pos hheld, List.append_nil]
      refine ⟨?_, fun _ => hfirst.1, fun hcount => hfirst.2 ?_⟩
      · show typed prev _ <+: []
        rw [hfirst.1]
      · have hle : (ready :: rest).count true ≤ (ready :: rest).length := List.count_le_length
        rw [List.length_cons] at hle
        have htwo : 2 ≤ (ready :: rest).count true := hcount
        omega

end Message

/-- A message is typed exactly when none of its keys is exchanged or held behind a free place, and no
    question mark stands for nothing. -/
theorem printing_types_iff (m : Memories) (buf : Nat) (typ : StorageType) (prev : KeyboardReport) (looked : Bool)
    (s : List Char) (hs : Stored m typ buf s) (hprintable : ∀ c ∈ s, Printable c) :
    TypesExactly m (Printer.entered buf typ prev) looked s ↔
      PrintsRight m (Printer.entered buf typ prev) looked s := by
  cases s with
  | nil => exact typesExactly_nil hs looked
  | cons c s =>
    have hsame : (∀ d ∈ c :: s, exchanged d = d) ↔ '\x60' ∉ c :: s ∧ '~' ∉ c :: s := by
      constructor
      · intro h
        exact ⟨fun hmem => ((exchanged_eq_iff _).mp (h _ hmem)).1 rfl,
          fun hmem => ((exchanged_eq_iff _).mp (h _ hmem)).2 rfl⟩
      · rintro ⟨hgrave, htilde⟩ d hd
        exact (exchanged_eq_iff d).mpr ⟨fun heq => hgrave (heq ▸ hd), fun heq => htilde (heq ▸ hd)⟩
    have hshown : hiddenKeys prev (c :: s) = 0 ↔
        Printer.Pressed prev ∨ (charToKeys (charByte c)).1 ∉ prev.keyCode := by
      by_cases hdown : Printer.Pressed prev <;>
        by_cases hheld : (charToKeys (charByte c)).1 ∈ prev.keyCode <;> simp [hiddenKeys, hdown, hheld]
    rw [typesExactly_of_ne_nil hs hprintable (List.cons_ne_nil c s), hsame, hshown]
    exact And.comm

/-- A message in the RAM, at address 0. -/
def messageMemory (s : List Char) : Memories := ⟨fun a => (s.map charByte).getD a 0, fun _ => 0⟩

theorem stored_messageMemory (s : List Char) : Stored (messageMemory s) .sram 0 s := by
  intro i hi
  rw [Nat.zero_add]
  show (s.map charByte).getD i 0 = _
  rw [List.length_append, List.length_singleton] at hi
  rw [List.getD_eq_getElem?_getD]
  rcases Nat.lt_or_ge i (s.map charByte).length with hlt | hge
  · rw [List.getElem?_eq_getElem hlt, List.getElem_append_left hlt]
    rfl
  · obtain rfl : i = (s.map charByte).length := by omega
    rw [List.getElem?_eq_none le_rfl]
    simp

theorem printing_types_aab : TypesExactly (messageMemory ['a', 'a', 'B'])
    (Printer.entered 0 .sram (pressReport (charByte 'a'))) false ['a', 'a', 'B'] :=
  (printing_types_iff _ 0 .sram _ false ['a', 'a', 'B'] (stored_messageMemory _)
    (by simp [Printable])).mpr ⟨by decide, .inl (pressed_pressReport _)⟩

/-- A grave accent is typed as a tilde. -/
theorem printing_types_tilde : Stored (messageMemory ['\x60']) .sram 0 ['\x60'] ∧ Printable '\x60' ∧
    ¬ TypesExactly (messageMemory ['\x60']) (Printer.entered 0 .sram emptyReport) true ['\x60'] := by
  refine ⟨stored_messageMemory _, by decide, fun htypes => ?_⟩
  have htyped : typed emptyReport
      ((Printer.entered 0 .sram emptyReport).run (messageMemory ['\x60']) true [true]).sent = ['~'] := by
    decide +kernel
  have hpre := (htypes [true]).1
  rw [show (Printer.entered 0 .sram emptyReport).prevReport = emptyReport from rfl, htyped] at hpre
  exact absurd hpre (by decide)

end KeyboardFirmware.Printing
