/-
  Starting a machine again after a run that has ended.

  `vm_start_vm` sets the state, the trigger, the instruction pointer, the frame and the top of the
  stack; it touches neither the keys nor the mouse buttons that the last run left pressed.  A
  machine shows no sign of its past from a start on exactly when the past left nothing pressed
  (`restarts_clean_iff`): then it has nothing to add to a report (`Quiet`), and what else the past
  has left in it is written before it is read (`Alike`).
-/
import KeyboardFirmware.Vm.Calls

namespace KeyboardFirmware.Vm

open Compiler Lib

namespace Vmstate

variable {vm : Vmstate} {s : Storage} {hw : Hardware}

/-- The machine as `vm_init_vm` leaves it, for the same program and in the same memory. -/
def withoutPast (vm : Vmstate) : Vmstate :=
  { state := .stopped
    delayEndMs := 0
    waitKey := 0
    triggerLkey := 0
    keyboardreport := .clear
    mousereport := ⟨0, 0, 0⟩
    program := vm.program
    code := vm.code
    ip := 0
    stackTop := 0
    currentFrame := 0
    stack := vm.stack
    mem := vm.mem
    writes := [] }

/-- The reports get nothing from the machine as long as it has not pressed or moved anything. -/
def Silent (vm : Vmstate) : Prop :=
  ∀ cs, vm.PressesNothing cs →
    (∀ report, ((vm.after cs).appendKeyboardReport report).2 = report) ∧
    ∀ report, ((vm.after cs).appendMouseReport report).2 = report

/-- A start of the machine is clean: it is silent, and when its program's header is read, no calls
    tell it from the machine without a past. -/
def StartsClean (vm : Vmstate) : Prop :=
  (∀ s triggerLkey, (vm.start s triggerLkey).Silent) ∧
  ∀ s triggerLkey, vm.ReadsHeader s → ∀ cs,
    (vm.start s triggerLkey).effects cs = (vm.withoutPast.start s triggerLkey).effects cs

/-- Nothing is left pressed. -/
def Released (vm : Vmstate) : Prop :=
  vm.keyboardreport = .clear ∧ vm.mousereport.button = 0

instance (vm : Vmstate) : Decidable vm.Released := inferInstanceAs (Decidable (_ ∧ _))

theorem init_withoutPast {p : Nat} {s : Storage} {stack : Nat} {mem : Nat → VByte} {vm : Vmstate}
    (h : init p s stack mem = some vm) : vm.withoutPast = vm := by
  obtain ⟨n, -, rfl⟩ := Option.map_eq_some_iff.mp h
  rfl

/-! ## Silence -/

/-- The machine has nothing to add to a report. -/
structure Quiet (vm : Vmstate) : Prop where
  keyboardreport : vm.keyboardreport = .clear
  mousereport : vm.mousereport = ⟨0, 0, 0⟩

theorem append_clear (report : KeyboardReport) :
    ExtraKeyboardReport.clear.append report = report := by
  have hkeys : ∀ (n start next : Nat) (keyCode : List Word8),
      appendKeys start (List.replicate n NO_KEY) next keyCode = keyCode := by
    intro n
    induction n with
    | zero => exact fun _ _ _ => rfl
    | succ n ih =>
      intro start next keyCode
      rw [List.replicate_succ, appendKeys, if_pos rfl, ih, ite_self]
  show KeyboardReport.mk (report.modifier ||| 0) _ = report
  rw [ExtraKeyboardReport.clear, hkeys]
  simp

theorem addT_zero (x : VByte) : addT x 0 = x := by
  have hlow : -128 ≤ x.toInt := BitVec.le_toInt x
  have hhigh : x.toInt < 128 := BitVec.toInt_lt
  unfold addT
  have hzero : (0 : VByte).toInt = 0 := rfl
  simp only [hzero, Int.add_zero]
  rw [if_neg (by omega), if_neg (by omega), BitVec.ofInt_toInt]

theorem Quiet.appendKeyboardReport (h : Quiet vm) (report : KeyboardReport) :
    (vm.appendKeyboardReport report).2 = report := by
  unfold Vmstate.appendKeyboardReport
  split_ifs
  · rfl
  all_goals
    show vm.keyboardreport.append report = report
    rw [h.keyboardreport, append_clear]

theorem Quiet.appendMouseReport (h : Quiet vm) (report : MouseReport) :
    (vm.appendMouseReport report).2 = report := by
  unfold Vmstate.appendMouseReport
  split_ifs
  · rfl
  all_goals
    show MouseReport.mk (report.button ||| vm.mousereport.button)
      (addT report.x vm.mousereport.x) (addT report.y vm.mousereport.y) = report
    rw [h.mousereport, addT_zero, addT_zero]
    simp

theorem remove_clear (key : Word8) : ExtraKeyboardReport.clear.remove key = .clear := by
  unfold ExtraKeyboardReport.remove
  split_ifs with hkey
  · simp [ExtraKeyboardReport.clear]
  · have hne : NO_KEY ≠ key := by
      rintro rfl
      exact hkey (by decide)
    have hmem : key ∉ ExtraKeyboardReport.clear.keys := by
      simp [ExtraKeyboardReport.clear, hne.symm]
    rw [List.replace_of_not_mem hmem]

theorem Quiet.kept {vm' : Vmstate} (h : Quiet vm) (hk : Kept vm vm') : Quiet vm' :=
  ⟨hk.keyboardreport.trans h.keyboardreport, hk.mousereport.trans h.mousereport⟩

theorem Quiet.exec (h : Quiet vm) {op : Opcode} (hop : some op ∉ [some (.syscall .pressKey),
      some (.syscall .pressMouseButtons), some (.syscall .moveMouse)]) :
    Quiet (vm.exec hw s op) := by
  rcases opcode_cases op with ⟨sop, hsop, rfl⟩ | ⟨sop, hsop, rfl⟩ | hkept
  · simp only [reportOps, List.mem_cons, List.not_mem_nil, or_false] at hsop
    rcases hsop with rfl | rfl | rfl | rfl | rfl
    · simp at hop
    · refine ⟨?_, h.mousereport⟩
      show vm.keyboardreport.remove vm.topByte = .clear
      rw [h.keyboardreport, remove_clear]
    · simp at hop
    · refine ⟨h.keyboardreport, ?_⟩
      show MouseReport.mk (vm.mousereport.button &&& ~~~(vm.topByte &&& 0x1f)) vm.mousereport.x
        vm.mousereport.y = ⟨0, 0, 0⟩
      rw [h.mousereport]
      simp
    · simp at hop
  · simp only [waitOps, List.mem_cons, List.not_mem_nil, or_false] at hsop
    rcases hsop with rfl | rfl | rfl <;> exact ⟨h.keyboardreport, h.mousereport⟩
  · exact h.kept (.exec vm s hw hkept)

/-- **Step**: a call that presses and moves nothing leaves the machine with nothing to add. -/
theorem Quiet.respond (h : Quiet vm) {c : Call} (hc : ¬ vm.Presses c) : Quiet (vm.respond c).1 := by
  cases c with
  | start s triggerLkey =>
    by_cases hstart : vm.Startable
    · exact h.kept (start_kept hstart triggerLkey).1
    · show Quiet (vm.start s triggerLkey)
      rw [start_refused hstart]
      exact h
  | step hw s =>
    show Quiet (vm.step hw s)
    rcases step_cases vm s hw with ⟨op, hop, -, hstep⟩ | ⟨-, hk, -⟩
    · rw [hstep]
      refine Quiet.exec ?_ (hop ▸ hc)
      unfold Vmstate.wake
      split_ifs <;> exact ⟨h.keyboardreport, h.mousereport⟩
    · exact h.kept hk
  | keyboardReport report =>
    show Quiet (vm.appendKeyboardReport report).1
    unfold Vmstate.appendKeyboardReport
    split_ifs <;> exact ⟨h.keyboardreport, h.mousereport⟩
  | mouseReport report =>
    show Quiet (vm.appendMouseReport report).1
    unfold Vmstate.appendMouseReport
    have hstill : { vm.mousereport with x := 0, y := 0 } = (⟨0, 0, 0⟩ : MouseReport) := by
      rw [h.mousereport]
    split_ifs
    · exact h
    all_goals exact ⟨h.keyboardreport, hstill⟩

/-- **Run**: such a machine is silent. -/
theorem Quiet.silent (h : Quiet vm) : vm.Silent := by
  intro cs hcs
  induction cs generalizing vm with
  | nil => exact ⟨h.appendKeyboardReport, h.appendMouseReport⟩
  | cons c cs ih => exact ih (h.respond hcs.1) hcs.2

/-! ## What the past leaves unread -/

/-- The machine with another key to wait for, end of a delay and record of writes. -/
def stale (vm : Vmstate) (w : Word8) (d : BitVec 32) (l : List (Nat × VByte)) : Vmstate :=
  { vm with waitKey := w, delayEndMs := d, writes := l }

/-- The second machine is the first one with a stale key, delay and record. -/
def Stale (w : Word8) (d : BitVec 32) (vm vm' : Vmstate) : Prop := ∃ l, vm' = vm.stale w d l

section Stale

variable {w : Word8} {d : BitVec 32} {vm vm' : Vmstate}

theorem Stale.pokeAll (vs : List VByte) : ∀ {vm vm' : Vmstate} (a : Nat), Stale w d vm vm' →
    Stale w d (vm.pokeAll a vs) (vm'.pokeAll a vs) := by
  induction vs with
  | nil => exact fun _ h => h
  | cons v vs ih =>
    rintro vm vm' a ⟨l, rfl⟩
    exact ih (a + 1) ⟨_, rfl⟩

theorem Stale.popTo (h : Stale w d vm vm') (t : Typ) (a : Nat) :
    Stale w d (vm.popTo t a) (vm'.popTo t a) := by
  obtain ⟨l, rfl⟩ := h
  cases t <;> exact ⟨_, rfl⟩

theorem Stale.pushFrom (h : Stale w d vm vm') (t : Typ) (a : Nat) :
    Stale w d (vm.pushFrom t a) (vm'.pushFrom t a) := by
  obtain ⟨l, rfl⟩ := h
  cases t <;> exact ⟨_, rfl⟩

theorem Stale.nextInstr (h : Stale w d vm vm') {k : Word8 → Vmstate → Vmstate}
    (hk : ∀ b {vm vm'}, Stale w d vm vm' → Stale w d (k b vm) (k b vm')) :
    Stale w d (vm.nextInstr s k) (vm'.nextInstr s k) := by
  obtain ⟨l, rfl⟩ := h
  unfold Vmstate.nextInstr
  dsimp only [stale]
  cases s vm.ip with
  | some b => exact hk b ⟨l, rfl⟩
  | none => exact ⟨l, rfl⟩

theorem Stale.nextShort (h : Stale w d vm vm') {k : VShort → Vmstate → Vmstate}
    (hk : ∀ v {vm vm'}, Stale w d vm vm' → Stale w d (k v vm) (k v vm')) :
    Stale w d (vm.nextShort s k) (vm'.nextShort s k) := by
  obtain ⟨l, rfl⟩ := h
  unfold Vmstate.nextShort
  dsimp only [stale]
  cases s vm.ip with
  | none => exact ⟨l, rfl⟩
  | some lo =>
    cases s (vm.ip + 1) with
    | none => exact ⟨l, rfl⟩
    | some hi => exact hk _ ⟨l, rfl⟩

theorem Stale.goto (h : Stale w d vm vm') : Stale w d (vm.goto s) (vm'.goto s) :=
  h.nextShort fun v _ _ h => by
    obtain ⟨l, rfl⟩ := h
    exact ⟨l, rfl⟩

theorem Stale.enter (h : Stale w d vm vm') (nargs nlocals codeOffset : Nat) :
    Stale w d (vm.enter nargs nlocals codeOffset) (vm'.enter nargs nlocals codeOffset) := by
  obtain ⟨l, rfl⟩ := h
  let top := vm.stackTop - nargs + 1
  let args := (List.range nargs).map fun i => vm.mem (vm.stackTop - nargs + 1 + i)
  let frame : Vmstate → Vmstate := fun vm' =>
    ((vm'.pokePointer top vm.ip).pokePointer (top + 2) (top - 1)).pokePointer (top + 4)
      vm.currentFrame
  have hframe : Stale w d (frame vm) (frame (vm.stale w d l)) := ⟨_, rfl⟩
  obtain ⟨l', hl'⟩ := hframe.pokeAll args (top + 6)
  refine ⟨l', ?_⟩
  show ({ (frame (vm.stale w d l)).pokeAll (top + 6) args with
    currentFrame := top
    stackTop := top + 6 + nlocals
    ip := vm.code + codeOffset } : Vmstate) = _
  rw [hl']
  rfl

theorem Stale.call (h : Stale w d vm vm') : Stale w d (vm.call s) (vm'.call s) :=
  h.nextInstr fun methodid vm vm' h => by
    obtain ⟨l, rfl⟩ := h
    dsimp only [stale]
    generalize (vm.program + 2 + 4 * BitVec.toInt methodid).toNat = m
    cases s m <;> cases s (m + 1) <;> cases s (m + 2) <;> cases s (m + 3)
    case some.some.some.some nargs nlocals lo hi => exact Stale.enter ⟨l, rfl⟩ _ _ _
    all_goals exact ⟨l, rfl⟩

theorem Stale.ret (h : Stale w d vm vm') (t : Typ) : Stale w d (vm.ret t) (vm'.ret t) := by
  obtain ⟨l, rfl⟩ := h
  unfold Vmstate.ret
  show Stale w d _ (if vm.pointerAt vm.currentFrame = 0 then _ else _)
  split_ifs
  · exact ⟨l, rfl⟩
  · cases t <;> exact ⟨_, rfl⟩

theorem Stale.arithByte (h : Stale w d vm vm') (op : ArithOp) :
    Stale w d (vm.arithByte op) (vm'.arithByte op) := by
  obtain ⟨l, rfl⟩ := h
  unfold Vmstate.arithByte
  split <;> exact ⟨_, rfl⟩

theorem Stale.arithShort (h : Stale w d vm vm') (op : ArithOp) :
    Stale w d (vm.arithShort op) (vm'.arithShort op) := by
  obtain ⟨l, rfl⟩ := h
  unfold Vmstate.arithShort
  split <;> exact ⟨_, rfl⟩

/-- An instruction that starts no wait leaves them stale. -/
theorem Stale.exec (h : Stale w d vm vm') {op : Opcode} (hop : ∀ sop ∈ waitOps, op ≠ .syscall sop) :
    Stale w d (vm.exec hw s op) (vm'.exec hw s op) := by
  have hread := h
  obtain ⟨l, rfl⟩ := h
  cases op with
  | store t =>
    refine hread.nextInstr (k := fun addr vm => vm.popTo t (vm.localAddr addr))
      fun addr vm vm' h => ?_
    obtain ⟨l, rfl⟩ := h
    exact Stale.popTo ⟨l, rfl⟩ t _
  | storeN t i => exact hread.popTo t _
  | load t =>
    refine hread.nextInstr (k := fun addr vm => vm.pushFrom t (vm.localAddr addr))
      fun addr vm vm' h => ?_
    obtain ⟨l, rfl⟩ := h
    exact Stale.pushFrom ⟨l, rfl⟩ t _
  | loadN t i => exact hread.pushFrom t _
  | gstore t =>
    refine hread.nextInstr (k := fun addr vm => vm.popTo t (vm.globalAddr addr))
      fun addr vm vm' h => ?_
    obtain ⟨l, rfl⟩ := h
    exact Stale.popTo ⟨l, rfl⟩ t _
  | gload t =>
    refine hread.nextInstr (k := fun addr vm => vm.pushFrom t (vm.globalAddr addr))
      fun addr vm vm' h => ?_
    obtain ⟨l, rfl⟩ := h
    exact Stale.pushFrom ⟨l, rfl⟩ t _
  | const t =>
    cases t
    case byte =>
      refine hread.nextInstr (k := fun c vm => vm.pushByte c) fun c vm vm' h => ?_
      obtain ⟨l, rfl⟩ := h
      exact ⟨_, rfl⟩
    all_goals
      refine hread.nextShort (k := fun c vm => vm.pushShort c) fun c vm vm' h => ?_
      obtain ⟨l, rfl⟩ := h
      exact ⟨_, rfl⟩
  | constN t i => cases t <;> exact ⟨_, rfl⟩
  | dup t => cases t <;> exact ⟨_, rfl⟩
  | pop t => cases t <;> exact ⟨_, rfl⟩
  | arith aop t =>
    cases t
    case byte => exact hread.arithByte aop
    all_goals exact hread.arithShort aop
  | cond c =>
    show Stale w d _ (if vmIfCheck c vm.topByte then ((vm.drop 1).stale w d l).goto s else _)
    show Stale w d (if vmIfCheck c vm.topByte then (vm.drop 1).goto s else _) _
    split_ifs
    · exact Stale.goto ⟨l, rfl⟩
    · exact ⟨l, rfl⟩
  | goto => exact hread.goto
  | call => exact hread.call
  | ret t => exact hread.ret t
  | syscall sop =>
    cases sop
    case waitKey | waitPhysKey | delay => exact absurd rfl (hop _ (by decide))
    case pressKey =>
      show Stale w d (if (0xe8 : Word8) ≤ vm.topByte then vm.drop 1 else _)
        (if (0xe8 : Word8) ≤ vm.topByte then (vm.drop 1).stale w d l else _)
      split_ifs <;> exact ⟨l, rfl⟩
    all_goals exact ⟨_, rfl⟩
  | _ => exact ⟨_, rfl⟩

end Stale

/-- Two machines that differ at most in what will be written before it is read. -/
def Alike (vm vm' : Vmstate) : Prop :=
  ∃ w d, Stale w d vm vm' ∧ (vm.state ∈ [.delay, .waitKey, .waitPhysKey] → d = vm.delayEndMs) ∧
    (vm.state ∈ [.waitKey, .waitPhysKey] → w = vm.waitKey)

section Alike

variable {w : Word8} {d : BitVec 32} {vm vm' : Vmstate}

/-- Outside the waits with a time limit it does not matter what is stale. -/
theorem Alike.of_stale (h : Stale w d vm vm')
    (hstate : vm.state ∉ [.delay, .waitKey, .waitPhysKey]) : Alike vm vm' :=
  ⟨w, d, h, fun h => absurd h hstate, fun h => absurd (List.mem_cons_of_mem _ h) hstate⟩

theorem Alike.exec (h : Stale w d vm vm') (hrun : vm.state = .running) (op : Opcode) :
    Alike (vm.exec hw s op) (vm'.exec hw s op) := by
  rcases opcode_cases op with ⟨sop, hsop, rfl⟩ | ⟨sop, hsop, rfl⟩ | hkept
  · refine .of_stale (h.exec fun sop' hsop' heq => ?_) ?_
    · obtain rfl := Opcode.syscall.inj heq
      revert hsop hsop'
      cases sop <;> decide
    · simp only [reportOps, List.mem_cons, List.not_mem_nil, or_false] at hsop
      rcases hsop with rfl | rfl | rfl | rfl | rfl
      · show (if (0xe8 : Word8) ≤ vm.topByte then vm.drop 1 else _ : Vmstate).state ∉ _
        split_ifs
        · show vm.state ∉ _
          rw [hrun]
          decide
        · exact show Status.waitReport ∉ _ by decide
      · exact show Status.waitReport ∉ _ by decide
      all_goals exact show Status.waitMouseReport ∉ _ by decide
  · obtain ⟨l, rfl⟩ := h
    simp only [waitOps, List.mem_cons, List.not_mem_nil, or_false] at hsop
    rcases hsop with rfl | rfl | rfl
    · exact ⟨_, _, ⟨_, rfl⟩, fun _ => rfl, fun _ => rfl⟩
    · exact ⟨_, _, ⟨_, rfl⟩, fun _ => rfl, fun _ => rfl⟩
    · exact ⟨_, _, ⟨_, rfl⟩, fun _ => rfl, fun h => absurd h (show Status.delay ∉ _ by decide)⟩
  · refine .of_stale (h.exec fun sop hsop => hkept sop (List.mem_append_right _ hsop)) ?_
    rcases (Kept.exec vm s hw hkept).state with hs | hs
    · rw [hs, hrun]
      decide
    · intro hmem
      revert hs hmem
      cases (vm.exec hw s op).state <;> decide

theorem Alike.fetch (h : Stale w d vm vm') (hrun : vm.state = .running) :
    Alike (vm.fetch hw s) (vm'.fetch hw s) := by
  obtain ⟨l, rfl⟩ := h
  unfold Vmstate.fetch Vmstate.nextInstr
  dsimp only [stale]
  cases s vm.ip with
  | none => exact .of_stale ⟨l, rfl⟩ (show Status.crashed ∉ _ by decide)
  | some b =>
    dsimp only
    cases decode b with
    | none =>
      refine .of_stale ⟨l, rfl⟩ (show vm.state ∉ _ from ?_)
      rw [hrun]
      decide
    | some op =>
      have hnext : Stale w d (vm.advance 1) ((vm.advance 1).stale w d l) := ⟨l, rfl⟩
      exact Alike.exec hnext hrun op

theorem Alike.endWait (h : Alike vm vm') (p : Bool) (v : VByte) :
    Alike (if p then vm.endWait v else vm) (if p then vm'.endWait v else vm') := by
  cases p with
  | false => exact h
  | true =>
    obtain ⟨w, d, ⟨l, rfl⟩, -, -⟩ := h
    exact .of_stale ⟨_, rfl⟩ (show Status.running ∉ _ by decide)

/-- The key that a wait of state `waitPhysKey` is for. -/
def setWaitKey (vm : Vmstate) : Vmstate :=
  if vm.waitKey = 0 then { vm with waitKey := vm.triggerLkey } else vm

section Step

variable (hroom : vm.stackTop ≤ vm.stack + (STACK_SIZE - 2))

include hroom

theorem step_waitPhysKey (hstate : vm.state = .waitPhysKey) : vm.step hw s =
    if hw.checkKey vm.setWaitKey.waitKey || vm.setWaitKey.timeout hw then
      vm.setWaitKey.endWait (if hw.checkKey vm.setWaitKey.waitKey then 1 else 0)
    else vm.setWaitKey := by
  simp [Vmstate.step, hstate, Status.active, not_lt.mpr hroom, setWaitKey]

theorem step_waitKey (hstate : vm.state = .waitKey) : vm.step hw s =
    if hw.checkHidKey vm.waitKey ≠ NO_KEY || vm.timeout hw then
      vm.endWait (if hw.checkHidKey vm.waitKey = NO_KEY then 0 else hw.checkHidKey vm.waitKey)
    else vm := by
  simp [Vmstate.step, hstate, Status.active, not_lt.mpr hroom]

theorem step_delay (hstate : vm.state = .delay) : vm.step hw s =
    if vm.delayEndMs < hw.uptimems then
      { vm with delayEndMs := 0, state := .running }.fetch hw s
    else vm := by
  simp [Vmstate.step, hstate, Status.active, not_lt.mpr hroom]

end Step

theorem step_idle (h : vm.state.active = false ∨ (vm.stackTop ≤ vm.stack + (STACK_SIZE - 2) ∧
    (vm.state = .waitReport ∨ vm.state = .waitMouseReport))) : vm.step hw s = vm := by
  rcases h with h | ⟨hroom, hstate | hstate⟩
  · simp [Vmstate.step, h]
  · simp [Vmstate.step, hstate, Status.active, not_lt.mpr hroom]
  · simp [Vmstate.step, hstate, Status.active, not_lt.mpr hroom]

theorem step_crash (hactive : vm.state.active = true)
    (hroom : ¬ vm.stackTop ≤ vm.stack + (STACK_SIZE - 2)) :
    vm.step hw s = { vm with state := .crashed } := by
  simp [Vmstate.step, hactive, not_le.mp hroom]

theorem Alike.step (h : Alike vm vm') : Alike (vm.step hw s) (vm'.step hw s) := by
  have hsame := h
  obtain ⟨w, d, ⟨l, rfl⟩, hd, hw'⟩ := h
  have hidle (h : vm.state.active = false ∨ (vm.stackTop ≤ vm.stack + (STACK_SIZE - 2) ∧
      (vm.state = .waitReport ∨ vm.state = .waitMouseReport))) :
      Alike (vm.step hw s) ((vm.stale w d l).step hw s) := by
    have h' : (vm.stale w d l).step hw s = vm.stale w d l := step_idle h
    rw [step_idle h, h']
    exact hsame
  cases hactive : vm.state.active with
  | false => exact hidle (.inl hactive)
  | true =>
  by_cases hroom : vm.stackTop ≤ vm.stack + (STACK_SIZE - 2)
  case neg =>
    have hcrash : (vm.stale w d l).step hw s = { vm.stale w d l with state := .crashed } :=
      step_crash hactive hroom
    rw [step_crash hactive hroom, hcrash]
    exact .of_stale ⟨l, rfl⟩ (show Status.crashed ∉ _ by decide)
  cases hstate : vm.state with
  | stopped | crashed | noProgram =>
    rw [hstate] at hactive
    exact absurd hactive (by decide)
  | waitReport => exact hidle (.inr ⟨hroom, .inl hstate⟩)
  | waitMouseReport => exact hidle (.inr ⟨hroom, .inr hstate⟩)
  | waitPhysKey =>
    obtain rfl := hd (by rw [hstate]; decide)
    obtain rfl := hw' (by rw [hstate]; decide)
    have hset : (vm.stale vm.waitKey vm.delayEndMs l).setWaitKey =
        vm.setWaitKey.stale vm.setWaitKey.waitKey vm.setWaitKey.delayEndMs l := by
      unfold setWaitKey
      by_cases hzero : vm.waitKey = 0
      · rw [if_pos hzero, if_pos (show (vm.stale _ _ l).waitKey = 0 from hzero)]
        rfl
      · rw [if_neg hzero, if_neg (show ¬ (vm.stale _ _ l).waitKey = 0 from hzero)]
    have hstep : (vm.stale vm.waitKey vm.delayEndMs l).step hw s = _ :=
      step_waitPhysKey hroom hstate
    rw [step_waitPhysKey hroom hstate, hstep, hset]
    exact Alike.endWait ⟨_, _, ⟨l, rfl⟩, fun _ => rfl, fun _ => rfl⟩ _ _
  | waitKey =>
    obtain rfl := hd (by rw [hstate]; decide)
    obtain rfl := hw' (by rw [hstate]; decide)
    have hstep : (vm.stale vm.waitKey vm.delayEndMs l).step hw s = _ := step_waitKey hroom hstate
    rw [step_waitKey hroom hstate, hstep]
    exact hsame.endWait _ _
  | delay =>
    obtain rfl := hd (by rw [hstate]; decide)
    have hstep : (vm.stale w vm.delayEndMs l).step hw s = _ := step_delay hroom hstate
    rw [step_delay hroom hstate, hstep]
    by_cases hover : vm.delayEndMs < hw.uptimems
    · rw [if_pos hover, if_pos (show (vm.stale w _ l).delayEndMs < _ from hover)]
      have hwake : Stale w 0 { vm with delayEndMs := 0, state := .running }
        { vm.stale w vm.delayEndMs l with delayEndMs := 0, state := .running } := ⟨l, rfl⟩
      exact .fetch hwake rfl
    · rw [if_neg hover, if_neg (show ¬ (vm.stale w _ l).delayEndMs < _ from hover)]
      exact hsame
  | running =>
    have hstep : (vm.stale w d l).step hw s = _ := step_fetch ⟨hstate, hroom⟩
    rw [step_fetch ⟨hstate, hroom⟩, hstep]
    exact .fetch ⟨l, rfl⟩ hstate

theorem Alike.executed (h : Alike vm vm') : vm'.executed hw s = vm.executed hw s := by
  obtain ⟨w, d, ⟨l, rfl⟩, hd, -⟩ := h
  unfold Vmstate.executed
  cases hstate : vm.state with
  | delay =>
    obtain rfl := hd (by rw [hstate]; decide)
    simp only [stale, hstate]
  | _ => simp only [stale, hstate]

theorem Alike.buzz (h : Alike vm vm') : vm'.buzz hw s = vm.buzz hw s := by
  unfold Vmstate.buzz
  rw [h.executed]
  obtain ⟨w, d, ⟨l, rfl⟩, -, -⟩ := h
  rfl

theorem Stale.start (h : Stale w d vm vm') (triggerLkey : Word8) :
    Stale w d (vm.start s triggerLkey) (vm'.start s triggerLkey) := by
  obtain ⟨l, rfl⟩ := h
  by_cases hstart : vm.Startable
  · have hgo : ¬ (vm.state = .noProgram ∨ vm.state.active = true) := by simp [hstart.1, hstart.2]
    unfold Vmstate.start
    rw [if_neg hgo, if_neg (show ¬ ((vm.stale w d l).state = .noProgram ∨
      (vm.stale w d l).state.active = true) from hgo)]
    dsimp only [stale]
    cases s vm.program <;> cases s (vm.program + 1) <;> cases s (vm.program + 2) <;>
      cases s (vm.program + 3) <;> cases s (vm.program + 4) <;> cases s (vm.program + 5) <;>
      exact ⟨_, rfl⟩
  · have hrefused : (vm.stale w d l).start s triggerLkey = vm.stale w d l :=
      start_refused (show ¬ (vm.stale w d l).Startable from hstart) triggerLkey
    rw [start_refused hstart, hrefused]
    exact ⟨l, rfl⟩

theorem Alike.start (h : Alike vm vm') (triggerLkey : Word8) :
    Alike (vm.start s triggerLkey) (vm'.start s triggerLkey) := by
  have hsame := h
  obtain ⟨w, d, hstale, -, -⟩ := h
  by_cases hstart : vm.Startable
  · refine .of_stale (hstale.start triggerLkey) ?_
    rw [(start_kept hstart triggerLkey).2]
    decide
  · obtain ⟨l, rfl⟩ := hstale
    have hrefused : (vm.stale w d l).start s triggerLkey = vm.stale w d l :=
      start_refused (show ¬ (vm.stale w d l).Startable from hstart) triggerLkey
    rw [start_refused hstart, hrefused]
    exact hsame

theorem appendKeyboardReport_inactive (h : vm.state.active = false) (report : KeyboardReport) :
    vm.appendKeyboardReport report = (vm, report) := by
  simp [Vmstate.appendKeyboardReport, h]

theorem appendKeyboardReport_active (h : vm.state.active = true) (report : KeyboardReport) :
    vm.appendKeyboardReport report =
      ({ vm with state := if vm.state = .waitReport then .running else vm.state },
        vm.keyboardreport.append report) := by
  unfold Vmstate.appendKeyboardReport
  rw [if_neg (by simp [h])]
  split_ifs <;> rfl

theorem appendMouseReport_inactive (h : vm.state.active = false) (report : MouseReport) :
    vm.appendMouseReport report = (vm, report) := by
  simp [Vmstate.appendMouseReport, h]

theorem appendMouseReport_active (h : vm.state.active = true) (report : MouseReport) :
    vm.appendMouseReport report =
      ({ vm with
          state := if vm.state = .waitMouseReport then .running else vm.state
          mousereport := { vm.mousereport with x := 0, y := 0 } },
        { button := report.button ||| vm.mousereport.button
          x := addT report.x vm.mousereport.x
          y := addT report.y vm.mousereport.y }) := by
  unfold Vmstate.appendMouseReport
  rw [if_neg (by simp [h])]
  split_ifs <;> rfl

/-- A wait for a report that ends is none with a time limit. -/
theorem Alike.reported {m : MouseReport} (h : Alike vm vm') (wait : Status) :
    Alike { vm with state := if vm.state = wait then .running else vm.state, mousereport := m }
      { vm' with state := if vm'.state = wait then .running else vm'.state, mousereport := m } := by
  obtain ⟨w, d, ⟨l, rfl⟩, hd, hw'⟩ := h
  by_cases hwait : vm.state = wait
  · rw [if_pos hwait, if_pos (show (vm.stale w d l).state = wait from hwait)]
    exact .of_stale ⟨l, rfl⟩ (show Status.running ∉ _ by decide)
  · rw [if_neg hwait, if_neg (show ¬ (vm.stale w d l).state = wait from hwait)]
    exact ⟨w, d, ⟨l, rfl⟩, hd, hw'⟩

/-- **Step**: one call has the same effect on both and leaves them alike. -/
theorem Alike.respond (h : Alike vm vm') (c : Call) :
    Alike (vm.respond c).1 (vm'.respond c).1 ∧ (vm.respond c).2 = (vm'.respond c).2 := by
  have hsame := h
  cases c with
  | start s triggerLkey =>
    refine ⟨h.start triggerLkey, ?_⟩
    obtain ⟨w, d, ⟨l, rfl⟩, -, -⟩ := h
    rfl
  | step hw s => exact ⟨h.step, congrArg Effect.step h.buzz.symm⟩
  | keyboardReport report =>
    obtain ⟨w, d, ⟨l, rfl⟩, -, -⟩ := h
    unfold Vmstate.respond
    cases hactive : vm.state.active with
    | false =>
      have hstale : (vm.stale w d l).appendKeyboardReport report = _ :=
        appendKeyboardReport_inactive (show (vm.stale w d l).state.active = false from hactive)
          report
      simp only [appendKeyboardReport_inactive hactive, hstale]
      exact ⟨hsame, trivial⟩
    | true =>
      have hstale : (vm.stale w d l).appendKeyboardReport report = _ :=
        appendKeyboardReport_active (show (vm.stale w d l).state.active = true from hactive) report
      simp only [appendKeyboardReport_active hactive, hstale]
      exact ⟨hsame.reported .waitReport, rfl⟩
  | mouseReport report =>
    obtain ⟨w, d, ⟨l, rfl⟩, -, -⟩ := h
    unfold Vmstate.respond
    cases hactive : vm.state.active with
    | false =>
      have hstale : (vm.stale w d l).appendMouseReport report = _ :=
        appendMouseReport_inactive (show (vm.stale w d l).state.active = false from hactive) report
      simp only [appendMouseReport_inactive hactive, hstale]
      exact ⟨hsame, trivial⟩
    | true =>
      have hstale : (vm.stale w d l).appendMouseReport report = _ :=
        appendMouseReport_active (show (vm.stale w d l).state.active = true from hactive) report
      simp only [appendMouseReport_active hactive, hstale]
      exact ⟨hsame.reported .waitMouseReport, rfl⟩

/-- **Run**: no calls tell two such machines apart. -/
theorem Alike.effects (cs : List Call) : ∀ {vm vm' : Vmstate}, Alike vm vm' →
    vm.effects cs = vm'.effects cs := by
  induction cs with
  | nil => exact fun _ => rfl
  | cons c cs ih =>
    intro vm vm' h
    obtain ⟨hnext, heffect⟩ := h.respond c
    show _ :: _ = _ :: _
    rw [heffect, ih hnext]

end Alike

/-! ## A program that presses keys -/

theorem after_append (cs cs' : List Call) : ∀ vm : Vmstate,
    vm.after (cs ++ cs') = (vm.after cs).after cs' := by
  induction cs with
  | nil => exact fun _ => rfl
  | cons c cs ih => exact fun vm => ih (vm.respond c).1

theorem effects_append (cs cs' : List Call) : ∀ vm : Vmstate,
    vm.effects (cs ++ cs') = vm.effects cs ++ (vm.after cs).effects cs' := by
  induction cs with
  | nil => exact fun _ => rfl
  | cons c cs ih => exact fun vm => congrArg (_ :: ·) (ih (vm.respond c).1)

/-- `BCONST` and `PRESSKEY` for each key. -/
def pressCode (keys : List Word8) : List Word8 := keys.flatMap fun key => [24, key, 87]

/-- The calls that let it run. -/
def pressCalls (hw : Hardware) (s : Storage) (keys : List Word8) : List Call :=
  keys.flatMap fun _ => [.step hw s, .step hw s, .keyboardReport emptyReport]

/-- The program with nothing but a main method of this code, four bytes behind the first header. -/
def pressStorage (vm : Vmstate) (keys : List Word8) : Storage := fun a =>
  if a < vm.program + 6 then some (if a = vm.program + 4 then 4 else 0)
  else (pressCode keys)[a - (vm.code + 4)]?

theorem pressStorage_header (vm : Vmstate) (keys : List Word8) {i : Nat} (hi : i < 6) :
    vm.pressStorage keys (vm.program + i) = some (if i = 4 then 4 else 0) := by
  unfold pressStorage
  rw [if_pos (Nat.add_lt_add_left hi _)]
  simp

theorem pressStorage_reads (vm : Vmstate) (keys : List Word8) :
    vm.ReadsHeader (vm.pressStorage keys) := fun i hi => by
  rw [pressStorage_header vm keys hi]
  rfl

/-- A machine that is ready, with room for one more byte. -/
structure PressReady (vm : Vmstate) : Prop extends Ready vm where
  more : vm.stackTop + 1 ≤ vm.stack + (STACK_SIZE - 2)

/-- One round: the key is in the report, and everything stands ready for the next one. -/
theorem PressReady.press (hw : Hardware) {key : Word8} (hr : PressReady vm)
    (hs : s.Holds vm.ip [24, key, 87]) (hkey : key < 0xe8) :
    let vm' := vm.after [.step hw s, .step hw s, .keyboardReport emptyReport]
    PressReady vm' ∧ vm'.ip = vm.ip + 3 ∧ vm'.keyboardreport = vm.keyboardreport.add key := by
  have hconst : decode 24 = some (.const .byte) := by decide
  have hpress : decode 87 = some (.syscall .pressKey) := by decide
  have h0 : s vm.ip = some 24 := hs 0 24 rfl
  have h1 : s (vm.ip + 1) = some key := hs 1 key rfl
  have h2 : s (vm.ip + 2) = some 87 := hs 2 87 rfl
  let pushed := ({ vm with ip := vm.ip + 2 } : Vmstate).pushByte key
  have hpushed : vm.step hw s = pushed := by
    rw [step_fetch hr.toReady]
    simp only [Vmstate.fetch, Vmstate.nextInstr, h0, hconst, Vmstate.exec, h1]
    rfl
  have htop : pushed.topByte = key := if_pos rfl
  have hpressed : pushed.step hw s = { (pushed.advance 1).drop 1 with
      keyboardreport := vm.keyboardreport.add key, state := .waitReport } := by
    have hready : pushed.Ready := ⟨hr.running, hr.more⟩
    have hfetch : pushed.fetch hw s = (pushed.advance 1).exec hw s (.syscall .pressKey) :=
      fetch_some pushed s hw (by rw [show s pushed.ip = some 87 from h2]; exact hpress)
    rw [step_fetch hready, hfetch]
    show (if (0xe8 : Word8) ≤ pushed.topByte then _ else _) = _
    rw [htop, if_neg (BitVec.not_le.mpr hkey)]
    show ({ (pushed.advance 1).drop 1 with
      keyboardreport := vm.keyboardreport.add pushed.topByte, state := .waitReport } : Vmstate) = _
    rw [htop]
  intro vm'
  have hvm' : vm' = { (pushed.advance 1).drop 1 with
      keyboardreport := vm.keyboardreport.add key, state := .running } := by
    show (((vm.step hw s).step hw s).appendKeyboardReport emptyReport).1 = _
    rw [hpushed, hpressed, appendKeyboardReport_active rfl]
    rfl
  rw [hvm']
  exact ⟨⟨⟨rfl, hr.room⟩, hr.more⟩, rfl, rfl⟩

theorem PressReady.pressAll (hw : Hardware) (keys : List Word8) (hkeys : ∀ key ∈ keys, key < 0xe8) :
    ∀ {vm : Vmstate}, PressReady vm → s.Holds vm.ip (pressCode keys) →
      (vm.after (pressCalls hw s keys)).keyboardreport =
          keys.foldl ExtraKeyboardReport.add vm.keyboardreport ∧
        (vm.after (pressCalls hw s keys)).state = .running := by
  induction keys with
  | nil => exact fun hr _ => ⟨rfl, hr.running⟩
  | cons key keys ih =>
    intro vm hr hs
    have hcode : pressCode (key :: keys) = [24, key, 87] ++ pressCode keys := rfl
    rw [hcode] at hs
    have hfirst : s.Holds vm.ip [24, key, 87] := fun i b hb =>
      hs i b ((List.getElem?_append_left (List.getElem?_eq_some_iff.mp hb).1).trans hb)
    obtain ⟨hr', hip, hreport⟩ := hr.press hw hfirst (hkeys key List.mem_cons_self)
    have hrest : s.Holds (vm.ip + 3) (pressCode keys) := fun i b hb => by
      rw [Nat.add_assoc]
      refine hs (3 + i) b ((List.getElem?_append_right (Nat.le_add_right 3 i)).trans ?_)
      rw [show 3 + i - [24, key, 87].length = i from Nat.add_sub_cancel_left 3 i]
      exact hb
    have hcalls : pressCalls hw s (key :: keys) =
        [.step hw s, .step hw s, .keyboardReport emptyReport] ++ pressCalls hw s keys := rfl
    rw [hcalls, after_append, List.foldl_cons, ← hreport]
    rw [← hip] at hrest
    exact ih (fun key hkey => hkeys key (List.mem_cons_of_mem _ hkey)) hr' hrest

/-- Started with this program, a machine presses all its keys. -/
theorem start_press (h : vm.Startable) (hcode : vm.program + 2 ≤ vm.code) (hw : Hardware)
    (triggerLkey : Word8) (keys : List Word8) (hkeys : ∀ key ∈ keys, key < 0xe8) :
    let vm' := (vm.start (vm.pressStorage keys) triggerLkey).after
      (pressCalls hw (vm.pressStorage keys) keys)
    vm'.keyboardreport = keys.foldl ExtraKeyboardReport.add vm.keyboardreport ∧
      vm'.state = .running := by
  obtain ⟨hkept, hrun⟩ := start_kept (s := vm.pressStorage keys) h triggerLkey
  have hstart : (vm.start (vm.pressStorage keys) triggerLkey).ip = vm.code + 4 ∧
      (vm.start (vm.pressStorage keys) triggerLkey).stackTop = vm.stack + 6 := by
    unfold start
    rw [if_neg (by simp [h.1, h.2])]
    have h0 : vm.pressStorage keys vm.program = some 0 :=
      pressStorage_header vm keys (show 0 < 6 by decide)
    have h1 : vm.pressStorage keys (vm.program + 1) = some 0 :=
      pressStorage_header vm keys (show 1 < 6 by decide)
    have h2 : vm.pressStorage keys (vm.program + 2) = some 0 :=
      pressStorage_header vm keys (show 2 < 6 by decide)
    have h3 : vm.pressStorage keys (vm.program + 3) = some 0 :=
      pressStorage_header vm keys (show 3 < 6 by decide)
    have h4 : vm.pressStorage keys (vm.program + 4) = some 4 :=
      pressStorage_header vm keys (show 4 < 6 by decide)
    have h5 : vm.pressStorage keys (vm.program + 5) = some 0 :=
      pressStorage_header vm keys (show 5 < 6 by decide)
    simp only [h0, h1, h2, h3, h4, h5]
    exact ⟨rfl, rfl⟩
  have hready : PressReady (vm.start (vm.pressStorage keys) triggerLkey) := by
    have hsize : STACK_SIZE - 2 = 94 := rfl
    refine ⟨⟨hrun, ?_⟩, ?_⟩ <;> rw [hstart.2, hkept.stack] <;> omega
  have hholds : (vm.pressStorage keys).Holds (vm.start (vm.pressStorage keys) triggerLkey).ip
      (pressCode keys) := by
    rw [hstart.1]
    intro i b hb
    unfold pressStorage
    rw [if_neg (by omega), Nat.add_sub_cancel_left]
    exact hb
  rw [← hkept.keyboardreport]
  exact hready.pressAll hw keys hkeys hholds

/-! ## Starting again -/

theorem length_effects (cs : List Call) : ∀ vm : Vmstate, (vm.effects cs).length = cs.length := by
  induction cs with
  | nil => exact fun _ => rfl
  | cons c cs ih => exact fun vm => congrArg (· + 1) (ih (vm.respond c).1)

/-- A key that is in the report stays in it while others are added. -/
theorem mem_add {r : ExtraKeyboardReport} {key : Word8} (hmem : key ∈ r.keys) (hne : key ≠ NO_KEY)
    (key' : Word8) : key ∈ (r.add key').keys := by
  have hreplace : ∀ keys : List Word8, key ∈ keys → key ∈ keys.replace NO_KEY key' := by
    intro keys
    induction keys with
    | nil => exact id
    | cons k keys ih =>
      intro hmem
      rw [List.replace_cons]
      split
      next heq =>
        rcases List.mem_cons.mp hmem with rfl | htail
        · exact absurd (beq_iff_eq.mp heq).symm hne
        · exact List.mem_cons_of_mem _ htail
      next =>
        rcases List.mem_cons.mp hmem with rfl | htail
        · exact List.mem_cons_self
        · exact List.mem_cons_of_mem _ (ih htail)
  unfold ExtraKeyboardReport.add
  split_ifs
  · exact hmem
  · exact hmem
  · exact hreplace _ hmem

theorem mem_foldl_add {key : Word8} (hne : key ≠ NO_KEY) (keys : List Word8) :
    ∀ {r : ExtraKeyboardReport}, key ∈ r.keys →
      key ∈ (keys.foldl ExtraKeyboardReport.add r).keys := by
  induction keys with
  | nil => exact id
  | cons key' keys ih => exact fun hmem => ih (mem_add hmem hne key')

theorem length_foldl_add (keys : List Word8) : ∀ r : ExtraKeyboardReport,
    (keys.foldl ExtraKeyboardReport.add r).keys.length = r.keys.length := by
  induction keys with
  | nil => exact fun _ => rfl
  | cons key keys ih => exact fun r => (ih (r.add key)).trans (length_add r key)

/-- The keys of a report are all added to one that is empty. -/
theorem keyCode_append {r : ExtraKeyboardReport} (h : r.keys.length = extraReportKeyCount)
    {key : Word8} (hmem : key ∈ r.keys) (hne : key ≠ NO_KEY) : key ∈ (r.append emptyReport).keyCode := by
  have hle : (occupied NO_KEY r.keys).length ≤ keyboardReportKeyCount :=
    (List.length_filter_le _ _).trans_eq h
  have heq : (r.append emptyReport).keyCode = [] ++ occupied NO_KEY r.keys ++ _ :=
    appendKeys_eq r.keys [] keyboardReportKeyCount rfl hle
  rw [heq, List.nil_append]
  exact List.mem_append_left _ (mem_occupied.mpr ⟨hmem, hne⟩)

theorem StartsClean.of_released (h : Reached vm) (hstart : vm.Startable) (hreleased : vm.Released) :
    vm.StartsClean := by
  obtain ⟨hx, hy⟩ := h.pastOk.still hstart.ne_wait
  have hmouse : vm.mousereport = ⟨0, 0, 0⟩ := by
    show MouseReport.mk vm.mousereport.button vm.mousereport.x vm.mousereport.y = _
    rw [hx, hy, hreleased.2]
  refine ⟨fun s triggerLkey => ?_, fun s triggerLkey hheader cs => ?_⟩
  · have hquiet : Quiet vm := ⟨hreleased.1, hmouse⟩
    exact (hquiet.kept (start_kept hstart triggerLkey).1).silent
  · have hstale : Stale 0 0 (vm.start s triggerLkey) (vm.withoutPast.start s triggerLkey) := by
      obtain ⟨b0, h0⟩ := Option.isSome_iff_exists.mp (hheader 0 (by decide))
      obtain ⟨b1, h1⟩ := Option.isSome_iff_exists.mp (hheader 1 (by decide))
      obtain ⟨b2, h2⟩ := Option.isSome_iff_exists.mp (hheader 2 (by decide))
      obtain ⟨b3, h3⟩ := Option.isSome_iff_exists.mp (hheader 3 (by decide))
      obtain ⟨b4, h4⟩ := Option.isSome_iff_exists.mp (hheader 4 (by decide))
      obtain ⟨b5, h5⟩ := Option.isSome_iff_exists.mp (hheader 5 (by decide))
      rw [Nat.add_zero] at h0
      unfold Vmstate.start
      rw [if_neg (by simp [hstart.1, hstart.2]), if_neg (by simp [withoutPast, Status.active])]
      simp only [withoutPast, h0, h1, h2, h3, h4, h5, ← hmouse, ← hreleased.1]
      exact ⟨_, rfl⟩
    refine Alike.effects cs (.of_stale hstale ?_)
    rw [(start_kept hstart triggerLkey).2]
    decide

theorem StartsClean.released (h : Reached vm) (hstart : vm.Startable) (hclean : vm.StartsClean) :
    vm.Released := by
  obtain ⟨hsilent, hsame⟩ := hclean
  have hpast := h.pastOk
  let keys : List Word8 := [4, 5, 6, 7, 8, 9]
  let s := vm.pressStorage keys
  let hw : Hardware := ⟨0, fun _ => false, fun _ => NO_KEY⟩
  obtain ⟨hkept, hrun⟩ := start_kept (s := s) hstart 0
  have hactive : (vm.start s 0).state.active = true := by
    rw [hrun]
    rfl
  -- what is seen at once
  have hkeyboard : vm.keyboardreport.append emptyReport = emptyReport := by
    have hempty := (hsilent s 0 [] trivial).1 emptyReport
    change ((vm.start s 0).appendKeyboardReport emptyReport).2 = _ at hempty
    rw [appendKeyboardReport_active hactive] at hempty
    rw [← hkept.keyboardreport]
    exact hempty
  have hbutton : vm.mousereport.button = 0 := by
    have hempty := (hsilent s 0 [] trivial).2 ⟨0, 0, 0⟩
    change ((vm.start s 0).appendMouseReport ⟨0, 0, 0⟩).2 = _ at hempty
    rw [appendMouseReport_active hactive, hkept.mousereport] at hempty
    have hor : (0 : Word8) ||| vm.mousereport.button = 0 := congrArg MouseReport.button hempty
    simpa using hor
  have hmodifiers : vm.keyboardreport.modifiers = 0 := by
    have hor : (0 : Word8) ||| vm.keyboardreport.modifiers = 0 :=
      congrArg KeyboardReport.modifier hkeyboard
    simpa using hor
  have hkeys : ∀ key ∈ vm.keyboardreport.keys, key ≠ NO_KEY → key = 0 := fun key hmem hne => by
    have hcode := keyCode_append hpast.places hmem hne
    rw [hkeyboard] at hcode
    exact List.eq_of_mem_replicate hcode
  -- a key of code 0 takes the place of one that is pressed later
  have hzero : (0 : Word8) ∉ vm.keyboardreport.keys := by
    intro hmem
    have hlast : ∀ vm' : Vmstate, vm'.state.active = true →
        vm'.effects [.keyboardReport emptyReport] =
          [.keyboardReport (vm'.keyboardreport.append emptyReport)] := fun vm' hactive => by
      show [Effect.keyboardReport (vm'.appendKeyboardReport emptyReport).2] = _
      rw [appendKeyboardReport_active hactive]
    obtain ⟨hreport, hrun⟩ := start_press hstart hpast.code hw 0 keys (by decide)
    have hfresh : vm.withoutPast.Startable := ⟨nofun, rfl⟩
    obtain ⟨hreport', hrun'⟩ := start_press hfresh hpast.code hw 0 keys (by decide)
    have heffects := hsame s 0 (pressStorage_reads vm keys)
      (pressCalls hw s keys ++ [.keyboardReport emptyReport])
    rw [effects_append, effects_append] at heffects
    have hend := List.append_inj_right heffects (by rw [length_effects, length_effects])
    have hactive : ((vm.start s 0).after (pressCalls hw s keys)).state.active = true :=
      (congrArg Status.active hrun).trans rfl
    have hactive' : ((vm.withoutPast.start s 0).after (pressCalls hw s keys)).state.active = true :=
      (congrArg Status.active hrun').trans rfl
    rw [hlast _ hactive, hlast _ hactive'] at hend
    have hcodes := congrArg KeyboardReport.keyCode
      (Effect.keyboardReport.inj (List.cons.inj hend).1)
    have hplaces : ((vm.start s 0).after (pressCalls hw s keys)).keyboardreport.keys.length =
        extraReportKeyCount := by
      rw [hreport, length_foldl_add]
      exact hpast.places
    have hmem' : (0 : Word8) ∈
        ((vm.start s 0).after (pressCalls hw s keys)).keyboardreport.keys := by
      rw [hreport]
      exact mem_foldl_add (by decide) keys hmem
    have hcode := keyCode_append hplaces hmem' (by decide)
    have hexact : ((vm.withoutPast.start s 0).after (pressCalls hw s keys)).keyboardreport =
        ⟨0, keys⟩ :=
      hreport'.trans (show keys.foldl ExtraKeyboardReport.add .clear = ⟨0, keys⟩ by decide)
    rw [hcodes, hexact] at hcode
    exact absurd hcode (by decide)
  have hfree : vm.keyboardreport.keys = List.replicate 6 NO_KEY := by
    refine List.eq_replicate_iff.mpr ⟨hpast.places, fun key hmem => ?_⟩
    by_contra hne
    obtain rfl := hkeys key hmem hne
    exact hzero hmem
  refine ⟨?_, hbutton⟩
  show ExtraKeyboardReport.mk vm.keyboardreport.modifiers vm.keyboardreport.keys = _
  rw [hmodifiers, hfree]
  rfl

/-- **A machine starts clean after a run exactly when the run has left nothing pressed.** -/
theorem restarts_clean_iff (h : Reached vm) (hstart : vm.Startable) :
    vm.StartsClean ↔ vm.Released :=
  ⟨StartsClean.released h hstart, StartsClean.of_released h hstart⟩

/-! ## Two programs -/

theorem Reached.after (h : Reached vm) (cs : List Call) : Reached (vm.after cs) := by
  induction cs generalizing vm with
  | nil => exact h
  | cons c cs ih => exact ih (.respond c h)

/-- A program at address 0 with nothing but a main method. -/
def mainOnly (code : List Word8) : Storage := fun a => ([0, 1, 0, 0, 0, 0] ++ code)[a]?

/-- The machine for it, with its stack at address 16 of a memory of zeros. -/
def mainMachine : Vmstate :=
  { state := .stopped, delayEndMs := 0, waitKey := 0, triggerLkey := 0, keyboardreport := .clear,
    mousereport := ⟨0, 0, 0⟩, program := 0, code := 6, ip := 0, stackTop := 0, currentFrame := 0,
    stack := 16, mem := fun _ => 0, writes := [] }

theorem mainMachine_reached (code : List Word8) : Reached mainMachine :=
  .init (p := 0) (s := mainOnly code) rfl

/-- A keyboard on which nothing happens. -/
def idleKeyboard : Hardware := ⟨0, fun _ => false, fun _ => NO_KEY⟩

/-- `BCONST 4; PRESSKEY; VMEXIT`. -/
def pressAndExit : Storage := mainOnly [24, 4, 87, 86]

/-- `BCONST 4; PRESSKEY; BCONST 4; RELEASEKEY; VMEXIT`. -/
def tapAndExit : Storage := mainOnly [24, 4, 87, 24, 4, 88, 86]

/-- The machine after a run of a program with so many steps between its reports. -/
def afterRun (s : Storage) (rounds : List Nat) : Vmstate :=
  mainMachine.after (.start s 1 :: rounds.flatMap fun n =>
    List.replicate n (.step idleKeyboard s) ++ [.keyboardReport emptyReport])

theorem restarts_clean_iff_tapAndExit : (afterRun tapAndExit [2, 2, 1]).StartsClean :=
  (restarts_clean_iff ((mainMachine_reached []).after _) (by decide)).mpr (by decide)

/-- A program that exits with a key pressed presses it again as soon as it is started. -/
theorem restart_keeps_key :
    let vm := afterRun pressAndExit [2, 1]
    Reached vm ∧ vm.Startable ∧ vm.ReadsHeader pressAndExit ∧
      ((vm.start pressAndExit 1).appendKeyboardReport emptyReport).2.keyCode = [4, 0, 0, 0, 0, 0] ∧
      ¬ vm.StartsClean := by
  intro vm
  have hcode : ((vm.start pressAndExit 1).appendKeyboardReport emptyReport).2.keyCode =
      [4, 0, 0, 0, 0, 0] := by decide
  refine ⟨(mainMachine_reached []).after _, by decide, by decide, hcode, fun hclean => ?_⟩
  have hempty := (hclean.1 pressAndExit 1 [] trivial).1 emptyReport
  exact absurd (hcode.symm.trans (congrArg KeyboardReport.keyCode hempty)) (by decide)

end Vmstate

end KeyboardFirmware.Vm
