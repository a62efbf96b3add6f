/-
  The keys of the programs in the keyboard report.

  A machine shows the keys that its program has pressed and not released, six at most.  Its keys go
  behind those that the report has already, so nothing of these is lost and none comes twice
  (`vmAppendKeyboardReport_merges`).  The search for the end of the report stops at the code 0: a key
  behind a 0 is not seen.
-/
import KeyboardFirmware.Vm.Restart

namespace KeyboardFirmware.Vm

open Compiler Lib

/-! ## Histories -/

/-- What a program does to the keys of its machine, with the operand. -/
inductive KeyInstr
  | press (key : Word8)
  | release (key : Word8)
  deriving DecidableEq

/-- `PRESSKEY` and `RELEASEKEY`, as far as the keys go; the mouse keys are handled separately. -/
def ExtraKeyboardReport.apply (r : ExtraKeyboardReport) : KeyInstr → ExtraKeyboardReport
  | .press key => if (0xe8 : Word8) ≤ key then r else r.add key
  | .release key => r.remove key

/-- What a machine shows after some instructions. -/
def shownAfter (history : List KeyInstr) : ExtraKeyboardReport :=
  history.foldl ExtraKeyboardReport.apply .clear

/-- The key instruction of a call, if it executes one. -/
def Vmstate.keyInstr (vm : Vmstate) : Call → Option KeyInstr
  | .step hw s =>
    match vm.executed hw s with
    | some (.syscall .pressKey) => some (.press vm.topByte)
    | some (.syscall .releaseKey) => some (.release vm.topByte)
    | _ => none
  | _ => none

/-- The key instructions of some calls, in order. -/
def Vmstate.keyInstrs (vm : Vmstate) : List Call → List KeyInstr
  | [] => []
  | c :: cs => (vm.keyInstr c).toList ++ (vm.respond c).1.keyInstrs cs

/-- A machine, with all that has happened since `vm_init_vm`. -/
structure KeyMachine where
  initial : Vmstate
  inits : ∃ p s stack mem, Vmstate.init p s stack mem = some initial
  past : List Call

namespace KeyMachine

/-- The machine now. -/
def vm (m : KeyMachine) : Vmstate := m.initial.after m.past

/-- The keys it has pressed and released. -/
def history (m : KeyMachine) : List KeyInstr := m.initial.keyInstrs m.past

end KeyMachine

/-- `vm_append_KeyboardReport`. -/
def vmAppendKeyboardReport : List Vmstate → KeyboardReport → List Vmstate × KeyboardReport
  | [], report => ([], report)
  | vm :: vms, report =>
    let appended := vm.appendKeyboardReport report
    let rest := vmAppendKeyboardReport vms appended.2
    (appended.1 :: rest.1, rest.2)

/-- The report with the keys of some machines. -/
def mergedReport (machines : List KeyMachine) (base : KeyboardReport) : KeyboardReport :=
  (vmAppendKeyboardReport (machines.map KeyMachine.vm) base).2

/-! ## What is pressed -/

/-- A key was pressed and has not been released since. -/
def Pressed (history : List KeyInstr) (key : Word8) : Prop :=
  ∃ pre post, history = pre ++ .press key :: post ∧ key < 0xe8 ∧ .release key ∉ post

/-- The machine takes the key when it is pressed: it is a modifier, or fewer than six other keys are
    held. -/
def Takes (shown : ExtraKeyboardReport) (key : Word8) : Prop :=
  ExtraKeyboardReport.leftControl ≤ key ∨
    ((occupied NO_KEY shown.keys).filter fun other => other ≠ key).length < extraReportKeyCount

/-- A key was pressed, was taken, and has not been released since. -/
def Held (history : List KeyInstr) (key : Word8) : Prop :=
  ∃ pre post, history = pre ++ .press key :: post ∧ key < 0xe8 ∧ Takes (shownAfter pre) key ∧
    .release key ∉ post

/-! ## The report -/

/-- The number of places of the report that are in use. -/
def usedPlaces (report : KeyboardReport) : Nat := (occupied 0 report.keyCode).length

/-- The places of a report whose keys come first. -/
def places (front : List Word8) : List Word8 :=
  front ++ List.replicate (keyboardReportKeyCount - front.length) 0

/-- The keys of the report come first, and the free places behind them. -/
def Packed (report : KeyboardReport) : Prop :=
  ∃ front : List Word8, 0 ∉ front ∧ front.length ≤ keyboardReportKeyCount ∧
    report.keyCode = places front

/-- The running machines among some. -/
def running (machines : List KeyMachine) : List KeyMachine := machines.filter fun m => m.vm.state.active

/-- The merged report is right, for what counts as pressed. -/
structure Merges (pressed : List KeyInstr → Word8 → Prop) (base : KeyboardReport)
    (machines : List KeyMachine) : Prop where
  /-- no key of the base report is lost -/
  keepsBase : ∀ key ≠ 0, key ∈ base.keyCode → key ∈ (mergedReport machines base).keyCode
  /-- no key is lost that is there behind some of the machines -/
  keepsEarlier : ∀ before after, machines = before ++ after →
    ∀ key ≠ 0, key ∈ (mergedReport before base).keyCode → key ∈ (mergedReport machines base).keyCode
  /-- no key comes twice, but for one that is twice in the base report -/
  once : ∀ key ≠ 0, (mergedReport machines base).keyCode.count key ≤ max 1 (base.keyCode.count key)
  /-- every pressed key is there, if the keys that are not in the base report fit behind it -/
  shows : ∀ others : List Word8, usedPlaces base + others.length ≤ keyboardReportKeyCount →
    (∀ m ∈ running machines, ∀ key < ExtraKeyboardReport.leftControl, pressed m.history key →
      key ∈ base.keyCode ∨ key ∈ others) →
    ∀ m ∈ running machines, ∀ key < ExtraKeyboardReport.leftControl, pressed m.history key →
      key ∈ (mergedReport machines base).keyCode
  /-- the modifiers are those of the base report and of the machines -/
  modifiers : ∀ i < 8, (mergedReport machines base).modifier.getLsbD i = true ↔
    base.modifier.getLsbD i = true ∨
      ∃ m ∈ running machines, pressed m.history (ExtraKeyboardReport.leftControl + BitVec.ofNat 8 i)

/-! ## What a machine shows -/

section Shown

variable {vm : Vmstate} {history : List KeyInstr} {r : ExtraKeyboardReport} {key other : Word8}

/-- A call changes the keys only by its key instruction. -/
theorem respond_keyboardreport (vm : Vmstate) (c : Call) : (vm.respond c).1.keyboardreport =
    (vm.keyInstr c).toList.foldl ExtraKeyboardReport.apply vm.keyboardreport := by
  cases c with
  | start s triggerLkey =>
    show (vm.start s triggerLkey).keyboardreport = vm.keyboardreport
    by_cases hstart : vm.Startable
    · exact (Vmstate.start_kept hstart triggerLkey).1.keyboardreport
    · rw [Vmstate.start_refused hstart]
  | step hw s =>
    show (vm.step hw s).keyboardreport = _
    have hwake : vm.wake.keyboardreport = vm.keyboardreport ∧ vm.wake.topByte = vm.topByte := by
      unfold Vmstate.wake
      split_ifs <;> exact ⟨rfl, rfl⟩
    rcases Vmstate.step_cases vm s hw with ⟨op, hop, -, hstep⟩ | ⟨hnone, hkept, -⟩
    · rw [hstep, Vmstate.keyInstr, hop, ← hwake.1, ← hwake.2]
      rcases Vmstate.opcode_cases op with ⟨sop, hsop, rfl⟩ | ⟨sop, hsop, rfl⟩ | hother
      · simp only [Vmstate.reportOps, List.mem_cons, List.not_mem_nil, or_false] at hsop
        rcases hsop with rfl | rfl | rfl | rfl | rfl
        · show Vmstate.keyboardreport (if (0xe8 : Word8) ≤ vm.wake.topByte then _ else _) =
            if (0xe8 : Word8) ≤ vm.wake.topByte then _ else _
          split_ifs <;> rfl
        all_goals rfl
      · simp only [Vmstate.waitOps, List.mem_cons, List.not_mem_nil, or_false] at hsop
        rcases hsop with rfl | rfl | rfl <;> rfl
      · rw [(Vmstate.Kept.exec (vm.wake.advance 1) s hw hother).keyboardreport]
        have hnot : ∀ sop ∈ Vmstate.reportOps, op ≠ .syscall sop := fun sop hsop =>
          hother sop (List.mem_append_left _ hsop)
        split
        · next heq => exact absurd (Option.some_inj.mp heq) (hnot _ (by decide))
        · next heq => exact absurd (Option.some_inj.mp heq) (hnot _ (by decide))
        · rfl
    · rw [hkept.keyboardreport, Vmstate.keyInstr, hnone]
      rfl
  | keyboardReport report =>
    show (vm.appendKeyboardReport report).1.keyboardreport = vm.keyboardreport
    unfold Vmstate.appendKeyboardReport
    split_ifs <;> rfl
  | mouseReport report =>
    show (vm.appendMouseReport report).1.keyboardreport = vm.keyboardreport
    unfold Vmstate.appendMouseReport
    split_ifs <;> rfl

theorem after_keyboardreport (cs : List Call) : (vm.after cs).keyboardreport =
    (vm.keyInstrs cs).foldl ExtraKeyboardReport.apply vm.keyboardreport := by
  induction cs generalizing vm with
  | nil => rfl
  | cons c cs ih =>
    rw [Vmstate.after, ih, Vmstate.keyInstrs, List.foldl_append, respond_keyboardreport]

/-- **A machine** shows what its history says. -/
theorem KeyMachine.keyboardreport_eq (m : KeyMachine) : m.vm.keyboardreport = shownAfter m.history := by
  obtain ⟨p, s, stack, mem, hinit⟩ := m.inits
  obtain ⟨n, -, heq⟩ := Option.map_eq_some_iff.mp hinit
  have hclear : m.initial.keyboardreport = .clear := by
    rw [← heq]
  rw [KeyMachine.vm, after_keyboardreport, hclear]
  rfl

/-- The keys of a machine: six places, no key twice, and no modifier among them. -/
structure KeysOk (r : ExtraKeyboardReport) : Prop where
  length : r.keys.length = extraReportKeyCount
  nodup : (occupied NO_KEY r.keys).Nodup
  normal : ∀ key ∈ occupied NO_KEY r.keys, key < ExtraKeyboardReport.leftControl

theorem keysOk_clear : KeysOk .clear where
  length := rfl
  nodup := by
    show (occupied NO_KEY (List.replicate 6 NO_KEY)).Nodup
    rw [occupied_replicate]
    exact .nil
  normal := by
    intro key hkey
    have hnone : occupied NO_KEY ExtraKeyboardReport.clear.keys = [] := occupied_replicate NO_KEY 6
    rw [hnone] at hkey
    exact nomatch hkey

/-- Only the keys matter for this. -/
theorem KeysOk.congr {r' : ExtraKeyboardReport} (h : KeysOk r) (hkeys : r'.keys = r.keys) : KeysOk r' where
  length := hkeys ▸ h.length
  nodup := hkeys ▸ h.nodup
  normal := hkeys ▸ h.normal

theorem ne_noKey (h : key < ExtraKeyboardReport.leftControl) : key ≠ NO_KEY := by
  rintro rfl
  exact absurd h (by decide)

/-- A machine that has no free place left shows six other keys. -/
theorem takes_iff (h : KeysOk r) (hkey : key < ExtraKeyboardReport.leftControl) :
    Takes r key ↔ key ∈ r.keys ∨ NO_KEY ∈ r.keys := by
  have hnot : ¬ ExtraKeyboardReport.leftControl ≤ key := BitVec.not_le.mpr hkey
  rw [Takes, or_iff_right hnot]
  constructor
  · intro hlt
    by_contra hno
    rw [not_or] at hno
    have hfull : occupied NO_KEY r.keys = r.keys :=
      List.filter_eq_self.mpr fun x hx => decide_eq_true fun heq : x = NO_KEY => hno.2 (heq ▸ hx)
    have hothers : r.keys.filter (fun other => other ≠ key) = r.keys :=
      List.filter_eq_self.mpr fun x hx => decide_eq_true fun heq : x = key => hno.1 (heq ▸ hx)
    rw [hfull, hothers, h.length] at hlt
    exact absurd hlt (Nat.lt_irrefl _)
  · intro hplace
    have hmissing : ∃ x ∈ r.keys, ¬ (decide (x ≠ key) && decide (x ≠ NO_KEY)) = true := by
      rcases hplace with hmem | hmem
      · exact ⟨key, hmem, by simp⟩
      · exact ⟨NO_KEY, hmem, by simp⟩
    rw [occupied, List.filter_filter, ← h.length]
    exact List.length_filter_lt_length_iff_exists.mpr hmissing

theorem mem_keys_iff (h : key < ExtraKeyboardReport.leftControl) (keys : List Word8) :
    key ∈ keys ↔ key ∈ occupied NO_KEY keys := by
  rw [mem_occupied]
  exact (and_iff_left (ne_noKey h)).symm

/-- **Pressing a key** shows it, if the machine takes it. -/
theorem KeysOk.add (h : KeysOk r) (hkey : key < ExtraKeyboardReport.leftControl) :
    KeysOk (r.add key) ∧ ∀ other < ExtraKeyboardReport.leftControl,
      (other ∈ (r.add key).keys ↔ other ∈ r.keys ∨ other = key ∧ Takes r key) := by
  rw [ExtraKeyboardReport.add, if_neg (BitVec.not_le.mpr hkey), takes_iff h hkey]
  by_cases hmem : key ∈ r.keys
  · rw [if_pos hmem]
    refine ⟨h, fun other _ => ⟨.inl, ?_⟩⟩
    rintro (hother | ⟨rfl, -⟩)
    · exact hother
    · exact hmem
  rw [if_neg hmem]
  by_cases hfree : NO_KEY ∈ r.keys
  · have hput := occupied_put (ne_noKey hkey) hfree
    have hnew : key ∉ occupied NO_KEY r.keys := fun hin => hmem ((mem_keys_iff hkey _).mpr hin)
    refine ⟨⟨?_, ?_, ?_⟩, fun other hother => ?_⟩
    · exact List.length_replace.trans h.length
    · exact hput.nodup_iff.mpr (List.nodup_cons.mpr ⟨hnew, h.nodup⟩)
    · intro other hother
      rcases List.mem_cons.mp (hput.mem_iff.mp hother) with rfl | hin
      · exact hkey
      · exact h.normal other hin
    · rw [mem_keys_iff hother, hput.mem_iff, List.mem_cons, ← mem_keys_iff hother r.keys]
      constructor
      · rintro (rfl | hin)
        · exact .inr ⟨rfl, .inr hfree⟩
        · exact .inl hin
      · rintro (hin | ⟨rfl, -⟩)
        · exact .inr hin
        · exact .inl rfl
  · rw [List.replace_of_not_mem hfree]
    refine ⟨h, fun other _ => ⟨.inl, ?_⟩⟩
    rintro (hother | ⟨-, hplace | hplace⟩)
    · exact hother
    · exact absurd hplace hmem
    · exact absurd hplace hfree

/-- **Releasing a key** hides it. -/
theorem KeysOk.remove (h : KeysOk r) (hkey : key < ExtraKeyboardReport.leftControl) :
    KeysOk (r.remove key) ∧ ∀ other < ExtraKeyboardReport.leftControl,
      (other ∈ (r.remove key).keys ↔ other ∈ r.keys ∧ other ≠ key) := by
  rw [ExtraKeyboardReport.remove, if_neg (BitVec.not_le.mpr hkey)]
  by_cases hmem : key ∈ r.keys
  · have hfree := occupied_free (ne_noKey hkey) hmem
    obtain ⟨hgone, hnodup⟩ := List.nodup_cons.mp (hfree.nodup_iff.mp h.nodup)
    refine ⟨⟨?_, hnodup, ?_⟩, fun other hother => ?_⟩
    · exact List.length_replace.trans h.length
    · intro other hother
      exact h.normal other (hfree.mem_iff.mpr (List.mem_cons_of_mem _ hother))
    · rw [mem_keys_iff hother r.keys, mem_keys_iff hother, hfree.mem_iff, List.mem_cons]
      constructor
      · intro hin
        exact ⟨.inr hin, fun heq => hgone (heq ▸ hin)⟩
      · rintro ⟨rfl | hin, hne⟩
        · exact absurd rfl hne
        · exact hin
  · rw [List.replace_of_not_mem hmem]
    refine ⟨h, fun other _ => ⟨fun hin => ⟨hin, fun heq => hmem (heq ▸ hin)⟩, And.left⟩⟩

/-- A modifier does not change the keys. -/
theorem keys_of_modifier (hkey : ExtraKeyboardReport.leftControl ≤ key) :
    (r.add key).keys = r.keys ∧ (r.remove key).keys = r.keys := by
  rw [ExtraKeyboardReport.add, ExtraKeyboardReport.remove, if_pos hkey, if_pos hkey]
  exact ⟨rfl, rfl⟩

/-- A key that is none does not change the modifiers. -/
theorem modifiers_of_normal (hkey : key < ExtraKeyboardReport.leftControl) :
    (r.add key).modifiers = r.modifiers ∧ (r.remove key).modifiers = r.modifiers := by
  rw [ExtraKeyboardReport.add, ExtraKeyboardReport.remove, if_neg (BitVec.not_le.mpr hkey),
    if_neg (BitVec.not_le.mpr hkey)]
  split_ifs <;> exact ⟨rfl, rfl⟩

/-- The bit of a modifier. -/
def modifierBit (m : Word8) (key : Word8) : Bool :=
  m.getLsbD (key - ExtraKeyboardReport.leftControl).toNat

/-- The mask of a modifier has its own bit and no other. -/
theorem modifier_mask (hkey : ExtraKeyboardReport.leftControl ≤ key)
    (hother : ExtraKeyboardReport.leftControl ≤ other) (hlt : other < 0xe8) :
    ((1 : Word8) <<< (key - ExtraKeyboardReport.leftControl).toNat).getLsbD
      (other - ExtraKeyboardReport.leftControl).toNat = decide (other = key) := by
  have hindex : ∀ k : Word8, ExtraKeyboardReport.leftControl ≤ k →
      (k - ExtraKeyboardReport.leftControl).toNat = k.toNat - 224 := fun k hk =>
    BitVec.toNat_sub_of_le hk
  have hkey' : 224 ≤ key.toNat := hkey
  have hother' : 224 ≤ other.toNat := hother
  have hlt' : other.toNat < 232 := hlt
  rw [hindex key hkey, hindex other hother, BitVec.getLsbD_shiftLeft, show (1 : Word8) = 1#8 from rfl,
    Bool.eq_iff_iff]
  simp only [BitVec.getLsbD_one, Bool.and_eq_true, decide_eq_true_eq, Bool.not_eq_true',
    decide_eq_false_iff_not, ← BitVec.toNat_inj]
  omega

/-- Pressing and releasing a modifier change its own bit and no other. -/
theorem modifierBit_apply (hkey : ExtraKeyboardReport.leftControl ≤ key)
    (hother : ExtraKeyboardReport.leftControl ≤ other) (hlt : other < 0xe8) :
    modifierBit (r.add key).modifiers other = (modifierBit r.modifiers other || decide (other = key)) ∧
      modifierBit (r.remove key).modifiers other =
        (modifierBit r.modifiers other && !decide (other = key)) := by
  have hbit : (other - ExtraKeyboardReport.leftControl).toNat < 8 := by
    have hlt' : other.toNat < 232 := hlt
    rw [BitVec.toNat_sub_of_le hother, show ExtraKeyboardReport.leftControl.toNat = 224 from rfl]
    omega
  rw [ExtraKeyboardReport.add, ExtraKeyboardReport.remove, if_pos hkey, if_pos hkey]
  unfold modifierBit
  rw [BitVec.getLsbD_or, BitVec.getLsbD_and, BitVec.getLsbD_not, modifier_mask hkey hother hlt,
    decide_eq_true hbit, Bool.true_and]
  exact ⟨rfl, rfl⟩

end Shown

/-! ## What is held -/

section Held

variable {history : List KeyInstr} {i : KeyInstr} {key : Word8}

theorem held_nil : ¬ Held [] key := by
  rintro ⟨pre, post, heq, -⟩
  exact absurd heq (by simp)

/-- One more instruction. -/
theorem held_concat : Held (history ++ [i]) key ↔
    (i = .press key ∧ key < 0xe8 ∧ Takes (shownAfter history) key) ∨
      (Held history key ∧ i ≠ .release key) := by
  constructor
  · rintro ⟨pre, post, heq, hlt, htakes, hnot⟩
    rcases List.eq_nil_or_concat post with rfl | ⟨rest, last, rfl⟩
    · obtain ⟨rfl, hlast⟩ := List.append_inj' heq rfl
      exact .inl ⟨List.head_eq_of_cons_eq hlast, hlt, htakes⟩
    · have hsplit : history ++ [i] = (pre ++ .press key :: rest) ++ [last] := by
        rw [heq]
        simp
      obtain ⟨hpre, hlast⟩ := List.append_inj' hsplit rfl
      have hi : i = last := List.head_eq_of_cons_eq hlast
      rw [List.concat_eq_append, List.mem_append, List.mem_singleton, not_or] at hnot
      exact .inr ⟨⟨pre, rest, hpre, hlt, htakes, hnot.1⟩, fun heq => hnot.2 (heq.symm.trans hi)⟩
  · rintro (⟨rfl, hlt, htakes⟩ | ⟨⟨pre, post, rfl, hlt, htakes, hnot⟩, hne⟩)
    · exact ⟨history, [], rfl, hlt, htakes, List.not_mem_nil⟩
    · refine ⟨pre, post ++ [i], by simp, hlt, htakes, fun hmem => ?_⟩
      rcases List.mem_append.mp hmem with hin | hin
      · exact hnot hin
      · exact hne (List.mem_singleton.mp hin).symm

theorem shownAfter_concat (history : List KeyInstr) (i : KeyInstr) :
    shownAfter (history ++ [i]) = (shownAfter history).apply i := by
  rw [shownAfter, List.foldl_append]
  rfl

/-- **After any history** the machine shows the held keys and has the bits of the held modifiers. -/
theorem shownAfter_held (history : List KeyInstr) : KeysOk (shownAfter history) ∧
    (∀ key < ExtraKeyboardReport.leftControl, key ∈ (shownAfter history).keys ↔ Held history key) ∧
    (∀ key, ExtraKeyboardReport.leftControl ≤ key → key < 0xe8 →
      (modifierBit (shownAfter history).modifiers key = true ↔ Held history key)) := by
  induction history using List.reverseRecOn with
  | nil =>
    refine ⟨keysOk_clear, fun key hkey => ?_, fun key _ _ => ?_⟩
    · refine iff_of_false (fun hmem => ?_) held_nil
      exact ne_noKey hkey (List.eq_of_mem_replicate (n := 6) hmem)
    · refine iff_of_false (fun hbit => ?_) held_nil
      exact absurd hbit (by simp [shownAfter, modifierBit, ExtraKeyboardReport.clear])
  | append_singleton history i ih =>
    obtain ⟨hok, hkeys, hmodifiers⟩ := ih
    rw [shownAfter_concat]
    cases i with
    | press key =>
      have hheld : ∀ other, Held (history ++ [.press key]) other ↔
          (other = key ∧ other < 0xe8 ∧ Takes (shownAfter history) other) ∨ Held history other := by
        intro other
        rw [held_concat, KeyInstr.press.injEq, eq_comm (a := key)]
        simp
      simp only [hheld, ExtraKeyboardReport.apply]
      split
      · next hmouse =>
        -- a mouse key
        have hno : ∀ other : Word8, other < 0xe8 → other ≠ key := fun other hlt heq =>
          absurd (heq ▸ hlt) (BitVec.not_lt.mpr hmouse)
        refine ⟨hok, fun other hother => ?_, fun other hother hlt => ?_⟩
        · rw [hkeys other hother]
          exact ⟨.inr, fun h => h.resolve_left fun h => hno other h.2.1 h.1⟩
        · rw [hmodifiers other hother hlt]
          exact ⟨.inr, fun h => h.resolve_left fun h => hno other h.2.1 h.1⟩
      · next hmouse =>
        have hlt : key < 0xe8 := BitVec.not_le.mp hmouse
        by_cases hkey : key < ExtraKeyboardReport.leftControl
        · obtain ⟨hadd, hmem⟩ := hok.add hkey
          refine ⟨hadd, fun other hother => ?_, fun other hother hotherlt => ?_⟩
          · rw [hmem other hother, hkeys other hother, or_comm]
            refine or_congr_left ⟨?_, fun h => ⟨h.1, h.1 ▸ h.2.2⟩⟩
            rintro ⟨rfl, htakes⟩
            exact ⟨rfl, hlt, htakes⟩
          · rw [(modifiers_of_normal hkey).1, hmodifiers other hother hotherlt]
            refine ⟨.inr, fun h => h.resolve_left fun h => ?_⟩
            exact absurd (h.1 ▸ hother) (BitVec.not_le.mpr hkey)
        · have hle : ExtraKeyboardReport.leftControl ≤ key := BitVec.not_lt.mp hkey
          have hsame : ((shownAfter history).add key).keys = (shownAfter history).keys :=
            (keys_of_modifier hle).1
          refine ⟨hok.congr hsame, fun other hother => ?_, fun other hother hotherlt => ?_⟩
          · rw [hsame, hkeys other hother]
            refine ⟨.inr, fun h => h.resolve_left fun h => ?_⟩
            exact absurd (h.1 ▸ hother) hkey
          · rw [(modifierBit_apply hle hother hotherlt).1, Bool.or_eq_true, decide_eq_true_eq,
              hmodifiers other hother hotherlt, or_comm]
            exact or_congr_left ⟨fun h => ⟨h, hotherlt, .inl hother⟩, And.left⟩
    | release key =>
      have hheld : ∀ other, Held (history ++ [.release key]) other ↔
          Held history other ∧ other ≠ key := by
        intro other
        rw [held_concat, ne_eq, KeyInstr.release.injEq, eq_comm (a := key)]
        simp
      simp only [hheld, ExtraKeyboardReport.apply]
      by_cases hkey : key < ExtraKeyboardReport.leftControl
      · obtain ⟨hremove, hmem⟩ := hok.remove hkey
        refine ⟨hremove, fun other hother => ?_, fun other hother hotherlt => ?_⟩
        · rw [hmem other hother, hkeys other hother]
        · rw [(modifiers_of_normal hkey).2, hmodifiers other hother hotherlt]
          refine ⟨fun h => ⟨h, fun heq => ?_⟩, And.left⟩
          exact absurd (heq ▸ hother) (BitVec.not_le.mpr hkey)
      · have hle : ExtraKeyboardReport.leftControl ≤ key := BitVec.not_lt.mp hkey
        have hsame : ((shownAfter history).remove key).keys = (shownAfter history).keys :=
          (keys_of_modifier hle).2
        refine ⟨hok.congr hsame, fun other hother => ?_, fun other hother hotherlt => ?_⟩
        · rw [hsame, hkeys other hother]
          exact ⟨fun h => ⟨h, fun heq => hkey (heq ▸ hother)⟩, And.left⟩
        · rw [(modifierBit_apply hle hother hotherlt).2, Bool.and_eq_true, Bool.not_eq_true',
            decide_eq_false_iff_not, hmodifiers other hother hotherlt]

end Held

/-! ## One machine's keys behind the others -/

section Append

variable {front keys : List Word8} {report : KeyboardReport} {key : Word8}

theorem mem_places (hkey : key ≠ 0) : key ∈ places front ↔ key ∈ front := by
  rw [places, List.mem_append, or_iff_left fun hmem => hkey (List.eq_of_mem_replicate hmem)]

theorem count_places (hkey : key ≠ 0) : (places front).count key = front.count key := by
  rw [places, List.count_append, List.count_replicate, if_neg (by simpa using hkey.symm)]
  rfl

theorem occupied_places (hfront : 0 ∉ front) : occupied 0 (places front) = front := by
  rw [places, occupied, List.filter_append]
  have hall : front.filter (fun x => x ≠ 0) = front :=
    List.filter_eq_self.mpr fun x hx => decide_eq_true fun heq : x = 0 => hfront (heq ▸ hx)
  have hnone : (List.replicate (keyboardReportKeyCount - front.length) (0 : Word8)).filter
      (fun x => x ≠ 0) = [] := occupied_replicate 0 _
  rw [hall, hnone, List.append_nil]

/-- The search for the end stops behind the keys. -/
theorem findIdx_free (hfront : 0 ∉ front) (room : Nat) :
    (front ++ List.replicate room 0).findIdx (fun key => key = 0) = front.length := by
  induction front with
  | nil => cases room <;> rfl
  | cons key front ih =>
    rw [List.mem_cons, not_or] at hfront
    rw [List.cons_append, List.findIdx_cons, ih hfront.2, decide_eq_false (Ne.symm hfront.1)]
    rfl

/-- A key takes the first free place. -/
theorem places_set (h : front.length < keyboardReportKeyCount) (key : Word8) :
    (places front).set front.length key = places (front ++ [key]) := by
  obtain ⟨room, hroom⟩ : ∃ room, keyboardReportKeyCount - front.length = room + 1 :=
    ⟨keyboardReportKeyCount - front.length - 1, by omega⟩
  have hnext : keyboardReportKeyCount - (front ++ [key]).length = room := by
    rw [List.length_append, List.length_singleton]
    omega
  rw [places, places, hroom, hnext, List.set_append_right _ _ (Nat.le_refl _), Nat.sub_self,
    List.replicate_succ, List.set_cons_zero, List.append_assoc, List.singleton_append]

/-- The loop puts the keys that are not there yet behind those that are, as far as there is room. -/
theorem appendKeys_places (front : List Word8) : ∀ (keys added : List Word8),
    front.length + added.length ≤ keyboardReportKeyCount →
    appendKeys front.length keys (front.length + added.length) (places (front ++ added)) =
      places ((front ++ added ++ fresh front (occupied NO_KEY keys)).take keyboardReportKeyCount)
  | [], added, hlen => by
    have htake : (front ++ added ++ fresh front (occupied NO_KEY [])).take keyboardReportKeyCount =
        front ++ added := by
      refine (congrArg _ (List.append_nil _)).trans (List.take_of_length_le ?_)
      rw [List.length_append]
      exact hlen
    rw [appendKeys, htake]
  | key :: keys, added, hlen => by
    have hlength : (front ++ added).length = front.length + added.length := List.length_append
    rw [appendKeys]
    split
    · next hroom =>
      have hfront : (places (front ++ added)).take front.length = front := by
        rw [places, List.append_assoc, List.take_left]
      rw [hfront]
      by_cases hfree : key = NO_KEY
      · rw [if_pos hfree, hfree, occupied_cons_free]
        exact appendKeys_places front keys added hlen
      rw [if_neg hfree, occupied_cons_of_ne hfree]
      by_cases hmem : key ∈ front
      · have hskip : fresh front (key :: occupied NO_KEY keys) = fresh front (occupied NO_KEY keys) :=
          List.filter_cons_of_neg (by simpa using hmem)
        rw [if_pos hmem, hskip]
        exact appendKeys_places front keys added hlen
      · have htake : fresh front (key :: occupied NO_KEY keys) =
            key :: fresh front (occupied NO_KEY keys) :=
          List.filter_cons_of_pos (by simpa using hmem)
        have ih := appendKeys_places front keys (added ++ [key]) (by
          rw [List.length_append, List.length_singleton]
          omega)
        rw [if_neg hmem, htake, ← hlength, places_set (by omega)]
        simp only [List.length_append, List.length_singleton, List.append_assoc, List.singleton_append,
          ← Nat.add_assoc] at ih ⊢
        exact ih
    · next hfull =>
      rw [List.take_left' (by omega)]

/-- **A machine** appends the keys that are not in the report yet. -/
theorem append_keyCode (extra : ExtraKeyboardReport) (hfront : 0 ∉ front)
    (hlen : front.length ≤ keyboardReportKeyCount) (hreport : report.keyCode = places front) :
    (extra.append report).keyCode =
      places (grow keyboardReportKeyCount front (occupied NO_KEY extra.keys)) := by
  have hend : report.keyCode.findIdx (fun key => key = 0) = front.length := by
    rw [hreport]
    exact findIdx_free hfront _
  have happend := appendKeys_places front extra.keys [] hlen
  rw [List.append_nil, List.length_nil, Nat.add_zero] at happend
  show appendKeys _ extra.keys _ report.keyCode = _
  rw [hend, hreport]
  exact happend

end Append

/-! ## All machines -/

section Merge

variable {base : KeyboardReport} {machines : List KeyMachine} {front : List Word8} {key : Word8}

/-- The keys that a machine shows. -/
def KeyMachine.keys (m : KeyMachine) : List Word8 := occupied NO_KEY (shownAfter m.history).keys

/-- The machines append their keys one after the other. -/
theorem mergedReport_eq (machines : List KeyMachine) (base : KeyboardReport) :
    mergedReport machines base =
      (running machines).foldl (fun report m => (shownAfter m.history).append report) base := by
  induction machines generalizing base with
  | nil => rfl
  | cons m machines ih =>
    rw [mergedReport, List.map_cons, vmAppendKeyboardReport]
    show mergedReport machines (m.vm.appendKeyboardReport base).2 = _
    rw [ih]
    cases hactive : m.vm.state.active with
    | true =>
      have hrunning : running (m :: machines) = m :: running machines :=
        List.filter_cons_of_pos hactive
      rw [hrunning, List.foldl_cons, Vmstate.appendKeyboardReport_active hactive,
        m.keyboardreport_eq]
    | false =>
      have hrunning : running (m :: machines) = running machines :=
        List.filter_cons_of_neg (by simp [hactive])
      rw [hrunning, Vmstate.appendKeyboardReport_inactive hactive]

/-- No machine has pressed the code 0. -/
def NoZero (machines : List KeyMachine) : Prop := ∀ m ∈ machines, .press 0 ∉ m.history

theorem zero_not_mem_keys {m : KeyMachine} (h : .press 0 ∉ m.history) : 0 ∉ m.keys := by
  intro hmem
  have hkey : (0 : Word8) < ExtraKeyboardReport.leftControl := by decide
  have hshown := (mem_occupied.mp hmem).1
  obtain ⟨pre, post, heq, -⟩ := ((shownAfter_held m.history).2.1 0 hkey).mp hshown
  exact h (heq ▸ List.mem_append_right _ List.mem_cons_self)

theorem foldl_keyCode (hfront : 0 ∉ front) (hlen : front.length ≤ keyboardReportKeyCount)
    (hbase : base.keyCode = places front) (hzero : NoZero machines) :
    (machines.foldl (fun report m => (shownAfter m.history).append report) base).keyCode =
      places (growAll keyboardReportKeyCount front (machines.map KeyMachine.keys)) := by
  induction machines generalizing base front with
  | nil => exact hbase
  | cons m machines ih =>
    have happend := append_keyCode (shownAfter m.history) hfront hlen hbase
    refine ih (fun hmem => ?_) (length_grow_le _ _ _) happend fun m' hm' =>
      hzero m' (List.mem_cons_of_mem _ hm')
    rcases mem_of_mem_grow hmem with hin | hin
    · exact hfront hin
    · exact zero_not_mem_keys (hzero m List.mem_cons_self) hin

/-- **The places of the merged report**: the keys of the base report, and behind them those of the
    machines. -/
theorem mergedReport_keyCode (hfront : 0 ∉ front) (hlen : front.length ≤ keyboardReportKeyCount)
    (hbase : base.keyCode = places front) (hzero : NoZero machines) :
    (mergedReport machines base).keyCode =
      places (growAll keyboardReportKeyCount front ((running machines).map KeyMachine.keys)) := by
  rw [mergedReport_eq]
  exact foldl_keyCode hfront hlen hbase fun m hm => hzero m (List.mem_of_mem_filter hm)

theorem modifier_code : ∀ i < 8, ExtraKeyboardReport.leftControl ≤
      ExtraKeyboardReport.leftControl + BitVec.ofNat 8 i ∧
    ExtraKeyboardReport.leftControl + BitVec.ofNat 8 i < 0xe8 ∧
    (ExtraKeyboardReport.leftControl + BitVec.ofNat 8 i - ExtraKeyboardReport.leftControl).toNat = i := by
  decide

/-- The modifiers of the merged report. -/
theorem mergedReport_modifier (machines : List KeyMachine) (base : KeyboardReport) {i : Nat} (hi : i < 8) :
    (mergedReport machines base).modifier.getLsbD i = true ↔ base.modifier.getLsbD i = true ∨
      ∃ m ∈ running machines, Held m.history (ExtraKeyboardReport.leftControl + BitVec.ofNat 8 i) := by
  rw [mergedReport_eq]
  obtain ⟨hle, hlt, hindex⟩ := modifier_code i hi
  induction running machines generalizing base with
  | nil => simp
  | cons m machines ih =>
    have hbit := (shownAfter_held m.history).2.2 _ hle hlt
    rw [modifierBit, hindex] at hbit
    rw [List.foldl_cons, ih]
    show ((base.modifier ||| _).getLsbD i = true ∨ _) ↔ _
    rw [BitVec.getLsbD_or, Bool.or_eq_true, hbit, or_assoc]
    simp only [List.mem_cons, exists_eq_or_imp]

/-- The program that executes some key instructions, and then ends. -/
def keyProgram : List KeyInstr → List Word8
  | [] => [86]
  | .press key :: instrs => 24 :: key :: 87 :: keyProgram instrs
  | .release key :: instrs => 24 :: key :: 88 :: keyProgram instrs

/-- A machine that has executed some key instructions and has been asked for its keys after each. -/
def machineAfter (instrs : List KeyInstr) : KeyMachine where
  initial := Vmstate.mainMachine
  inits := ⟨0, Vmstate.mainOnly [], 16, fun _ => 0, rfl⟩
  past :=
    let s := Vmstate.mainOnly (keyProgram instrs)
    .start s 1 :: instrs.flatMap fun _ =>
      [.step Vmstate.idleKeyboard s, .step Vmstate.idleKeyboard s, .keyboardReport emptyReport]

theorem pressed_iff {history : List KeyInstr} : Pressed history key ↔
    ∃ n < history.length, history[n]? = some (.press key) ∧ key < 0xe8 ∧
      .release key ∉ history.drop (n + 1) := by
  constructor
  · rintro ⟨pre, post, rfl, hlt, hnot⟩
    refine ⟨pre.length, by simp, by simp, hlt, ?_⟩
    have hdrop : (pre ++ .press key :: post).drop (pre.length + 1) = post := by
      rw [← List.drop_drop, List.drop_left]
      rfl
    rw [hdrop]
    exact hnot
  · rintro ⟨n, hn, hpress, hlt, hnot⟩
    refine ⟨history.take n, history.drop (n + 1), ?_, hlt, hnot⟩
    obtain ⟨_, hget⟩ := List.getElem?_eq_some_iff.mp hpress
    rw [← hget, ← List.drop_eq_getElem_cons, List.take_append_drop]

instance (history : List KeyInstr) (key : Word8) : Decidable (Pressed history key) :=
  decidable_of_iff' _ pressed_iff

end Merge

end KeyboardFirmware.Vm
