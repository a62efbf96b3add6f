/-
  A machine and the rest of the firmware.

  The firmware starts a machine, steps it and asks it for its share of the two reports; what it sees
  are the effects of these calls.  A step executes an instruction or only lets time pass
  (`step_cases`), and all but a few instructions leave the reports and the pointers to the program
  alone (`Kept.exec`).  From this follows what holds of a machine at any time (`Reached.pastOk`).
-/
import KeyboardFirmware.Macro.ExtraReport
import KeyboardFirmware.Vm.Run

namespace KeyboardFirmware.Vm

open Compiler

/-- `BUZZER_DEFAULT_TONE`. -/
def BUZZER_DEFAULT_TONE : VByte := 110

/-- `addT`. -/
def addT (x y : VByte) : VByte :=
  let s := x.toInt + y.toInt
  if 127 < s then 127
  else if s < -128 then -128
  else BitVec.ofInt 8 s

namespace Vmstate

/-- `vm_append_KeyboardReport`, for one machine. -/
def appendKeyboardReport (vm : Vmstate) (report : KeyboardReport) : Vmstate × KeyboardReport :=
  if ! vm.state.active then (vm, report)
  else
    let vm := if vm.state = .waitReport then { vm with state := .running } else vm
    (vm, vm.keyboardreport.append report)

/-- `vm_append_MouseReport`, for one machine. -/
def appendMouseReport (vm : Vmstate) (report : MouseReport) : Vmstate × MouseReport :=
  if ! vm.state.active then (vm, report)
  else
    let vm := if vm.state = .waitMouseReport then { vm with state := .running } else vm
    ({ vm with mousereport := { vm.mousereport with x := 0, y := 0 } },
      { button := report.button ||| vm.mousereport.button
        x := addT report.x vm.mousereport.x
        y := addT report.y vm.mousereport.y })

/-- The instruction that `vm_step` comes to execute. -/
def executed (vm : Vmstate) (hw : Hardware) (s : Storage) : Option Opcode :=
  if ! vm.state.active then none
  else if vm.stack + (STACK_SIZE - 2) < vm.stackTop then none
  else
    match vm.state with
    | .waitReport | .waitMouseReport | .waitPhysKey | .waitKey => none
    | .delay => if vm.delayEndMs < hw.uptimems then (s vm.ip).bind decode else none
    | _ => (s vm.ip).bind decode

/-- The call of `buzzer_start_f` in `vm_step`: a duration and a tone. -/
def buzz (vm : Vmstate) (hw : Hardware) (s : Storage) : Option (VShort × VByte) :=
  match vm.executed hw s with
  | some (.syscall .buzzAt) =>
    let delay := (vm.drop 1).topShort
    if (0 : VShort).slt delay then some (delay, vm.topByte) else none
  | some (.syscall .buzz) =>
    if (0 : VShort).slt vm.topShort then some (vm.topShort, BUZZER_DEFAULT_TONE) else none
  | _ => none

/-- The header of the program can be read. -/
def ReadsHeader (vm : Vmstate) (s : Storage) : Prop := ∀ i < 6, (s (vm.program + i)).isSome

/-- `vm_start_vm` finds a machine that has a program and is not running. -/
def Startable (vm : Vmstate) : Prop := vm.state ≠ .noProgram ∧ vm.state.active = false

instance (vm : Vmstate) (s : Storage) : Decidable (vm.ReadsHeader s) :=
  inferInstanceAs (Decidable (∀ i < 6, _))

instance (vm : Vmstate) : Decidable vm.Startable := inferInstanceAs (Decidable (_ ∧ _))

end Vmstate

/-- The value of `vm_start_vm`. -/
inductive StartResult where
  | refused
  | readError
  | started
  deriving DecidableEq, Repr

/-- What the firmware does with a machine. -/
inductive Call where
  | start (s : Storage) (triggerLkey : Word8)
  | step (hw : Hardware) (s : Storage)
  | keyboardReport (report : KeyboardReport)
  | mouseReport (report : MouseReport)

/-- What it sees of the machine then. -/
inductive Effect where
  | start (r : StartResult)
  | step (tone : Option (VShort × VByte))
  | keyboardReport (report : KeyboardReport)
  | mouseReport (report : MouseReport)

namespace Vmstate

/-- The value that goes with `start`. -/
def startResult (vm : Vmstate) (s : Storage) : StartResult :=
  if ¬ vm.Startable then .refused else if vm.ReadsHeader s then .started else .readError

/-- One call. -/
def respond (vm : Vmstate) : Call → Vmstate × Effect
  | .start s triggerLkey => (vm.start s triggerLkey, .start (vm.startResult s))
  | .step hw s => (vm.step hw s, .step (vm.buzz hw s))
  | .keyboardReport report =>
    ((vm.appendKeyboardReport report).1, .keyboardReport (vm.appendKeyboardReport report).2)
  | .mouseReport report =>
    ((vm.appendMouseReport report).1, .mouseReport (vm.appendMouseReport report).2)

/-- One call after the other. -/
def after (vm : Vmstate) : List Call → Vmstate
  | [] => vm
  | c :: cs => (vm.respond c).1.after cs

/-- The effects of the calls. -/
def effects (vm : Vmstate) : List Call → List Effect
  | [] => []
  | c :: cs => (vm.respond c).2 :: (vm.respond c).1.effects cs

/-- The call executes an instruction that presses a key or a button or moves the mouse. -/
def Presses (vm : Vmstate) : Call → Prop
  | .step hw s =>
    vm.executed hw s ∈ [some (.syscall .pressKey), some (.syscall .pressMouseButtons),
      some (.syscall .moveMouse)]
  | _ => False

/-- None of the calls does. -/
def PressesNothing (vm : Vmstate) : List Call → Prop
  | [] => True
  | c :: cs => ¬ vm.Presses c ∧ (vm.respond c).1.PressesNothing cs

/-! ## Machines and their pasts -/

/-- A machine that some history has brought here since `vm_init_vm`. -/
inductive Reached : Vmstate → Prop
  | init {p : Nat} {s : Storage} {stack : Nat} {mem : Nat → VByte} {vm : Vmstate} :
      init p s stack mem = some vm → Reached vm
  | respond {vm : Vmstate} (c : Call) : Reached vm → Reached (vm.respond c).1

/-! ## What an instruction leaves alone -/

/-- The instructions that change the machine's share of a report. -/
def reportOps : List SyscallOp :=
  [.pressKey, .releaseKey, .pressMouseButtons, .releaseMouseButtons, .moveMouse]

/-- The instructions that start a wait with a time limit. -/
def waitOps : List SyscallOp := [.waitKey, .waitPhysKey, .delay]

/-- What most instructions leave alone. -/
structure Kept (vm vm' : Vmstate) : Prop where
  keyboardreport : vm'.keyboardreport = vm.keyboardreport
  mousereport : vm'.mousereport = vm.mousereport
  program : vm'.program = vm.program
  code : vm'.code = vm.code
  stack : vm'.stack = vm.stack
  state : vm'.state = vm.state ∨ vm'.state ∈ [.stopped, .crashed, .running]

section Kept

variable (vm : Vmstate) (s : Storage) (hw : Hardware)

theorem Kept.refl : Kept vm vm := ⟨rfl, rfl, rfl, rfl, rfl, .inl rfl⟩

theorem Kept.pokeAll (vs : List VByte) : ∀ (vm : Vmstate) (a : Nat), Kept vm (vm.pokeAll a vs) := by
  induction vs with
  | nil => exact fun vm _ => .refl vm
  | cons v vs ih => exact fun vm a => { ih (vm.poke a v) (a + 1) with }

theorem Kept.popTo (t : Typ) (a : Nat) : Kept vm (vm.popTo t a) := by
  cases t <;> exact { Kept.refl vm with }

theorem Kept.pushFrom (t : Typ) (a : Nat) : Kept vm (vm.pushFrom t a) := by
  cases t <;> exact { Kept.refl vm with }

theorem Kept.nextInstr {k : Word8 → Vmstate → Vmstate}
    (h : ∀ b, Kept { vm with ip := vm.ip + 1 } (k b { vm with ip := vm.ip + 1 })) :
    Kept vm (vm.nextInstr s k) := by
  unfold Vmstate.nextInstr
  split
  · exact { h _ with }
  · exact { Kept.refl vm with state := .inr (by simp) }

theorem Kept.nextShort {k : VShort → Vmstate → Vmstate}
    (h : ∀ v, Kept { vm with ip := vm.ip + 2 } (k v { vm with ip := vm.ip + 2 })) :
    Kept vm (vm.nextShort s k) := by
  unfold Vmstate.nextShort
  split
  · exact { h _ with }
  · exact { Kept.refl vm with state := .inr (by simp) }

theorem Kept.goto : Kept vm (vm.goto s) :=
  Kept.nextShort vm s fun _ => { Kept.refl _ with }

theorem Kept.pokeShort (a : Nat) (v : VShort) : Kept vm (vm.pokeShort a v) := { Kept.refl vm with }

theorem Kept.trans {vm vm' vm'' : Vmstate} (h : Kept vm vm') (h' : Kept vm' vm'') :
    Kept vm vm'' where
  keyboardreport := h'.keyboardreport.trans h.keyboardreport
  mousereport := h'.mousereport.trans h.mousereport
  program := h'.program.trans h.program
  code := h'.code.trans h.code
  stack := h'.stack.trans h.stack
  state := by
    rcases h'.state with hs | hs
    · rw [hs]
      exact h.state
    · exact .inr hs

theorem Kept.enter (nargs nlocals codeOffset : Nat) :
    Kept vm (vm.enter nargs nlocals codeOffset) := by
  let top := vm.stackTop - nargs + 1
  let args := (List.range nargs).map fun i => vm.mem (vm.stackTop - nargs + 1 + i)
  have hframe : Kept vm (((vm.pokePointer top vm.ip).pokePointer (top + 2) (top - 1)).pokePointer
      (top + 4) vm.currentFrame) :=
    ((Kept.pokeShort vm _ _).trans (.pokeShort _ _ _)).trans (.pokeShort _ _ _)
  have hargs := hframe.trans (.pokeAll args _ (top + 6))
  exact { hargs with }

theorem Kept.call : Kept vm (vm.call s) := by
  unfold Vmstate.call
  refine Kept.nextInstr vm s fun methodid => ?_
  dsimp only
  split
  · exact .enter _ _ _ _
  · exact { Kept.refl _ with state := .inr (by simp) }

theorem Kept.ret (t : Typ) : Kept vm (vm.ret t) := by
  unfold Vmstate.ret
  split_ifs
  · exact { Kept.refl vm with state := .inr (by simp) }
  · cases t <;> exact { Kept.refl vm with }

theorem Kept.arithByte (op : ArithOp) : Kept vm (vm.arithByte op) := by
  unfold Vmstate.arithByte
  split <;> exact { Kept.refl vm with }

theorem Kept.arithShort (op : ArithOp) : Kept vm (vm.arithShort op) := by
  unfold Vmstate.arithShort
  split <;> exact { Kept.refl vm with }

theorem Kept.exec {op : Opcode} (hop : ∀ sop ∈ reportOps ++ waitOps, op ≠ .syscall sop) :
    Kept vm (vm.exec hw s op) := by
  cases op with
  | store t =>
    show Kept vm (vm.nextInstr s fun addr vm => vm.popTo t (vm.localAddr addr))
    exact .nextInstr vm s fun _ => .popTo _ t _
  | storeN t i => exact .popTo vm t _
  | load t =>
    show Kept vm (vm.nextInstr s fun addr vm => vm.pushFrom t (vm.localAddr addr))
    exact .nextInstr vm s fun _ => .pushFrom _ t _
  | loadN t i => exact .pushFrom vm t _
  | gstore t =>
    show Kept vm (vm.nextInstr s fun addr vm => vm.popTo t (vm.globalAddr addr))
    exact .nextInstr vm s fun _ => .popTo _ t _
  | gload t =>
    show Kept vm (vm.nextInstr s fun addr vm => vm.pushFrom t (vm.globalAddr addr))
    exact .nextInstr vm s fun _ => .pushFrom _ t _
  | const t =>
    cases t
    case byte =>
      show Kept vm (vm.nextInstr s fun c vm => vm.pushByte c)
      exact .nextInstr vm s fun _ => { Kept.refl _ with }
    all_goals
      show Kept vm (vm.nextShort s fun c vm => vm.pushShort c)
      exact .nextShort vm s fun _ => { Kept.refl _ with }
  | constN t i => cases t <;> exact { Kept.refl vm with }
  | dup t => cases t <;> exact { Kept.refl vm with }
  | pop t => cases t <;> exact { Kept.refl vm with }
  | arith aop t =>
    cases t
    case byte => exact .arithByte vm aop
    all_goals exact .arithShort vm aop
  | cond c =>
    show Kept vm (if vmIfCheck c vm.topByte then (vm.drop 1).goto s else _)
    split_ifs
    · exact { Kept.goto (vm.drop 1) s with }
    · exact { Kept.refl vm with }
  | goto => exact .goto vm s
  | call => exact .call vm s
  | ret t => exact .ret vm t
  | vmexit => exact { Kept.refl vm with state := .inr (show Status.stopped ∈ _ by decide) }
  | syscall sop =>
    cases sop
    case pressKey | releaseKey | pressMouseButtons | releaseMouseButtons | moveMouse | waitKey |
        waitPhysKey | delay => exact absurd rfl (hop _ (by decide))
    all_goals exact { Kept.refl vm with }
  | _ => exact { Kept.refl vm with }

theorem fetch_some {op : Opcode} (h : (s vm.ip).bind decode = some op) :
    vm.fetch hw s = (vm.advance 1).exec hw s op := by
  obtain ⟨b, hb, hop⟩ := Option.bind_eq_some_iff.mp h
  simp only [fetch, nextInstr, hb, hop]
  rfl

theorem Kept.fetch_none (h : (s vm.ip).bind decode = none) : Kept vm (vm.fetch hw s) := by
  unfold fetch Vmstate.nextInstr
  cases hs : s vm.ip with
  | none => exact { Kept.refl vm with state := .inr (show Status.crashed ∈ _ by decide) }
  | some b =>
    have hb : decode b = none := by
      rw [hs] at h
      exact h
    simp only [hb]
    exact { Kept.refl vm with }

/-- The end of a wait for a key, if it has come. -/
theorem Kept.endWait (p : Bool) (v : VByte) : Kept vm (if p then vm.endWait v else vm) := by
  split
  · exact { Kept.refl vm with state := .inr (show Status.running ∈ _ by decide) }
  · exact .refl vm

/-- A delay that is over ends before the next instruction. -/
def wake (vm : Vmstate) : Vmstate :=
  if vm.state = .delay then { vm with delayEndMs := 0, state := .running } else vm

/-- **What a step does**: it executes an instruction, or it only lets time pass. -/
theorem step_cases :
    (∃ op, vm.executed hw s = some op ∧ vm.wake.Ready ∧
      vm.step hw s = (vm.wake.advance 1).exec hw s op) ∨
    (vm.executed hw s = none ∧ Kept vm (vm.step hw s) ∧
      (vm.state = .waitMouseReport → vm.stackTop ≤ vm.stack + (STACK_SIZE - 2) →
        vm.step hw s = vm)) := by
  unfold executed step wake
  by_cases hactive : vm.state.active
  case neg =>
    simp only [hactive]
    exact .inr ⟨rfl, .refl vm, fun _ _ => rfl⟩
  by_cases hroom : vm.stack + (STACK_SIZE - 2) < vm.stackTop
  · simp only [hactive, hroom]
    exact .inr ⟨rfl, { Kept.refl vm with state := .inr (show Status.crashed ∈ _ by decide) },
      fun _ h => absurd hroom (not_lt.mpr h)⟩
  simp only [hactive, hroom, Bool.not_true, Bool.false_eq_true, if_false]
  cases hstate : vm.state with
  | stopped | crashed | noProgram =>
    rw [hstate] at hactive
    exact absurd hactive (by decide)
  | waitReport | waitMouseReport => exact .inr ⟨rfl, .refl vm, fun _ _ => rfl⟩
  | waitPhysKey =>
    have hset : Kept vm (if vm.waitKey = 0 then
        { vm with state := .waitPhysKey, waitKey := vm.triggerLkey } else vm) := by
      split_ifs
      · exact { Kept.refl vm with state := .inl hstate.symm }
      · exact .refl vm
    exact .inr ⟨rfl, hset.trans (.endWait _ _ _), by rintro ⟨⟩⟩
  | waitKey => exact .inr ⟨rfl, .endWait vm _ _, by rintro ⟨⟩⟩
  | delay =>
    have hwake : Kept vm { vm with delayEndMs := 0, state := .running } :=
      { Kept.refl vm with state := .inr (show Status.running ∈ _ by decide) }
    dsimp only
    simp only [if_true]
    split_ifs with hover
    · cases hop : (s vm.ip).bind decode with
      | none => exact .inr ⟨rfl, hwake.trans (.fetch_none _ s hw hop), by rintro ⟨⟩⟩
      | some op => exact .inl ⟨op, rfl, ⟨rfl, not_lt.mp hroom⟩, fetch_some _ s hw hop⟩
    · exact .inr ⟨rfl, .refl vm, by rintro ⟨⟩⟩
  | running =>
    cases hop : (s vm.ip).bind decode with
    | none => exact .inr ⟨rfl, .fetch_none vm s hw hop, by rintro ⟨⟩⟩
    | some op => exact .inl ⟨op, rfl, ⟨hstate, not_lt.mp hroom⟩, fetch_some vm s hw hop⟩

end Kept

/-- An instruction changes a report, starts a wait, or leaves both alone. -/
theorem opcode_cases (op : Opcode) : (∃ sop ∈ reportOps, op = .syscall sop) ∨
    (∃ sop ∈ waitOps, op = .syscall sop) ∨ ∀ sop ∈ reportOps ++ waitOps, op ≠ .syscall sop := by
  by_cases hreport : ∃ sop ∈ reportOps, op = .syscall sop
  · exact .inl hreport
  by_cases hwait : ∃ sop ∈ waitOps, op = .syscall sop
  · exact .inr (.inl hwait)
  refine .inr (.inr fun sop hsop heq => ?_)
  rcases List.mem_append.mp hsop with h | h
  · exact hreport ⟨sop, h, heq⟩
  · exact hwait ⟨sop, h, heq⟩

/-! ## Any past -/

/-- What holds of a machine at any time: the keys have their six places, the code lies behind the
    two counts of the header, and a movement is there only while it waits to be reported. -/
structure PastOk (vm : Vmstate) : Prop where
  places : vm.keyboardreport.keys.length = extraReportKeyCount
  code : vm.program + 2 ≤ vm.code
  still : vm.state ≠ .waitMouseReport → vm.mousereport.x = 0 ∧ vm.mousereport.y = 0
  room : vm.state = .waitMouseReport → vm.stackTop ≤ vm.stack + (STACK_SIZE - 2)

variable {vm : Vmstate} {s : Storage} {hw : Hardware}

theorem PastOk.kept {vm' : Vmstate} (h : PastOk vm) (hstate : vm.state ≠ .waitMouseReport)
    (hk : Kept vm vm') : PastOk vm' := by
  have hstate' : vm'.state ≠ .waitMouseReport := fun heq => by
    rcases hk.state with hs | hs
    · exact hstate (hs.symm.trans heq)
    · rw [heq] at hs
      exact absurd hs (by decide)
  refine ⟨?_, ?_, fun _ => ?_, fun heq => absurd heq hstate'⟩
  · rw [hk.keyboardreport]
    exact h.places
  · rw [hk.program, hk.code]
    exact h.code
  · rw [hk.mousereport]
    exact h.still hstate

theorem length_add (r : ExtraKeyboardReport) (key : Word8) :
    (r.add key).keys.length = r.keys.length := by
  unfold ExtraKeyboardReport.add
  split_ifs
  · rfl
  · rfl
  · exact List.length_replace

theorem length_remove (r : ExtraKeyboardReport) (key : Word8) :
    (r.remove key).keys.length = r.keys.length := by
  unfold ExtraKeyboardReport.remove
  split_ifs
  · rfl
  · exact List.length_replace

theorem PastOk.exec (h : PastOk vm) (hr : vm.Ready) (op : Opcode) : PastOk (vm.exec hw s op) := by
  have hne : vm.state ≠ .waitMouseReport := by
    rw [hr.running]
    decide
  have hstill := h.still hne
  have hdrop : ∀ n, vm.stackTop - n ≤ vm.stack + (STACK_SIZE - 2) := fun n =>
    (Nat.sub_le _ _).trans hr.room
  rcases opcode_cases op with ⟨sop, hsop, rfl⟩ | ⟨sop, hsop, rfl⟩ | hop
  · simp only [reportOps, List.mem_cons, List.not_mem_nil, or_false] at hsop
    rcases hsop with rfl | rfl | rfl | rfl | rfl
    · show PastOk (if (0xe8 : Word8) ≤ vm.topByte then vm.drop 1 else _)
      split_ifs
      · exact { h with room := fun heq => absurd heq hne }
      · exact ⟨(length_add _ _).trans h.places, h.code, fun _ => hstill, nofun⟩
    · exact ⟨(length_remove _ _).trans h.places, h.code, fun _ => hstill, nofun⟩
    · exact ⟨h.places, h.code, fun hmouse => absurd rfl hmouse, fun _ => hdrop 1⟩
    · exact ⟨h.places, h.code, fun hmouse => absurd rfl hmouse, fun _ => hdrop 1⟩
    · exact ⟨h.places, h.code, fun hmouse => absurd rfl hmouse,
        fun _ => (Nat.sub_le _ _).trans (hdrop 1)⟩
  · simp only [waitOps, List.mem_cons, List.not_mem_nil, or_false] at hsop
    rcases hsop with rfl | rfl | rfl <;> exact ⟨h.places, h.code, fun _ => hstill, nofun⟩
  · exact h.kept hne (.exec vm s hw hop)

theorem PastOk.wake (h : PastOk vm) : PastOk vm.wake := by
  unfold Vmstate.wake
  split_ifs with hdelay
  · exact ⟨h.places, h.code, fun _ => h.still (by rw [hdelay]; decide), nofun⟩
  · exact h

theorem PastOk.step (h : PastOk vm) : PastOk (vm.step hw s) := by
  rcases step_cases vm s hw with ⟨op, -, hr, hstep⟩ | ⟨-, hk, hmouse⟩
  · rw [hstep]
    have hadvance : PastOk (vm.wake.advance 1) := { h.wake with }
    exact hadvance.exec ⟨hr.running, hr.room⟩ op
  · by_cases hstate : vm.state = .waitMouseReport
    · rw [hmouse hstate (h.room hstate)]
      exact h
    · exact h.kept hstate hk

/-- A start of a machine that is not running touches neither the reports nor the pointers to the
    program. -/
theorem start_kept (h : vm.Startable) (triggerLkey : Word8) : Kept vm (vm.start s triggerLkey) ∧
    (vm.start s triggerLkey).state = .running := by
  unfold start
  rw [if_neg (by simp [h.1, h.2])]
  dsimp only
  have hkept : ∀ {vm' : Vmstate}, Kept vm vm' → vm'.state = .running →
      Kept vm vm' ∧ vm'.state = .running := fun h h' => ⟨h, h'⟩
  split
  · exact hkept { Kept.refl vm with state := .inr (show Status.running ∈ _ by decide) } rfl
  · exact hkept { Kept.refl vm with state := .inr (show Status.running ∈ _ by decide) } rfl

theorem start_refused (h : ¬ vm.Startable) (triggerLkey : Word8) : vm.start s triggerLkey = vm := by
  unfold start
  refine if_pos ?_
  by_contra hno
  rw [not_or] at hno
  exact h ⟨hno.1, Bool.eq_false_iff.mpr hno.2⟩

theorem Startable.ne_wait (h : vm.Startable) : vm.state ≠ .waitMouseReport := by
  intro heq
  have := h.2
  rw [heq] at this
  exact absurd this (by decide)

theorem PastOk.start (h : PastOk vm) (triggerLkey : Word8) : PastOk (vm.start s triggerLkey) := by
  by_cases hstart : vm.Startable
  · exact h.kept hstart.ne_wait (start_kept hstart triggerLkey).1
  · rw [start_refused hstart]
    exact h

theorem PastOk.respond (h : PastOk vm) (c : Call) : PastOk (vm.respond c).1 := by
  cases c with
  | start s triggerLkey => exact h.start triggerLkey
  | step hw s => exact h.step
  | keyboardReport report =>
    show PastOk (vm.appendKeyboardReport report).1
    unfold appendKeyboardReport
    split_ifs with hactive hwait
    · exact h
    · exact ⟨h.places, h.code, fun _ => h.still (by rw [hwait]; decide), nofun⟩
    · exact h
  | mouseReport report =>
    show PastOk (vm.appendMouseReport report).1
    unfold appendMouseReport
    split_ifs with hactive hwait
    · exact h
    · exact ⟨h.places, h.code, fun _ => ⟨rfl, rfl⟩, nofun⟩
    · exact ⟨h.places, h.code, fun _ => ⟨rfl, rfl⟩, h.room⟩

/-- **Every past** keeps this. -/
theorem Reached.pastOk (h : Reached vm) : PastOk vm := by
  induction h with
  | init hinit =>
    obtain ⟨n, -, rfl⟩ := Option.map_eq_some_iff.mp hinit
    exact ⟨rfl, by simp; omega, fun _ => ⟨rfl, rfl⟩, nofun⟩
  | respond c _ ih => exact ih.respond c

end Vmstate

end KeyboardFirmware.Vm
