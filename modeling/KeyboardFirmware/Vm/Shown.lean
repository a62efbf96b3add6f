/-
  What a machine shows of its reports.

  An instruction that changes one of the two reports makes the machine wait until the firmware asks
  for that report.  `Drives` is a run of the machine in which it is stepped whenever it runs and asked
  for the report it waits with, whatever the keyboard; on record is what it showed.  The firmware
  steps all machines and asks for reports at times of its own: in whatever order its calls come, the
  machine is somewhere on this run (`Drives.calls`), and it comes to the end (`Drives.rounds`): the
  run is delivered (`Drives.delivers`).
-/
import KeyboardFirmware.Vm.Calls

namespace KeyboardFirmware.Vm

open Compiler

/-- A report that a machine has waited with. -/
inductive Shown where
  | keyboard (report : ExtraKeyboardReport)
  | mouse (report : MouseReport)
  deriving DecidableEq, Repr

/-- A run of the machine, and the reports it shows on the way. -/
inductive Drives (s : Storage) : Nat → Vmstate → List Shown → Vmstate → Prop
  | refl (vm : Vmstate) : Drives s 0 vm [] vm
  | step {n : Nat} {vm vm1 vm2 : Vmstate} {out : List Shown} : vm.state = .running →
      (∀ hw, vm.step hw s = vm1) → Drives s n vm1 out vm2 → Drives s (n + 1) vm out vm2
  | keyboard {n : Nat} {vm vm1 vm2 : Vmstate} {out : List Shown} : vm.state = .waitReport →
      vm.stackTop ≤ vm.stack + (STACK_SIZE - 2) → (∀ r, (vm.appendKeyboardReport r).1 = vm1) →
      Drives s n vm1 out vm2 → Drives s (n + 1) vm (.keyboard vm.keyboardreport :: out) vm2
  | mouse {n : Nat} {vm vm1 vm2 : Vmstate} {out : List Shown} : vm.state = .waitMouseReport →
      vm.stackTop ≤ vm.stack + (STACK_SIZE - 2) → (∀ r, (vm.appendMouseReport r).1 = vm1) →
      Drives s n vm1 out vm2 → Drives s (n + 1) vm (.mouse vm.mousereport :: out) vm2

variable {s : Storage} {vm vm' vm1 vm2 : Vmstate} {m n : Nat} {out out' : List Shown}

theorem Drives.trans (h : Drives s m vm out vm1) (h' : Drives s n vm1 out' vm2) :
    Drives s (m + n) vm (out ++ out') vm2 := by
  induction h with
  | refl =>
    rw [Nat.zero_add]
    exact h'
  | step hrun hstep _ ih =>
    rw [Nat.add_right_comm]
    exact .step hrun hstep (ih h')
  | keyboard hwait hroom hasked _ ih =>
    rw [Nat.add_right_comm]
    exact .keyboard hwait hroom hasked (ih h')
  | mouse hwait hroom hasked _ ih =>
    rw [Nat.add_right_comm]
    exact .mouse hwait hroom hasked (ih h')

/-- A keyboard on which nothing is pressed, at the start of time. -/
def idleHardware : Hardware := ⟨0, fun _ => false, fun _ => NO_KEY⟩

theorem idle_timeout (vm : Vmstate) : vm.timeout idleHardware = false := by
  simp [Vmstate.timeout, idleHardware]

/-- Then no wait ends. -/
theorem step_idle (h : vm.state ≠ .running) : (vm.step idleHardware s).state ≠ .running := by
  have hcrashed : ∀ {vm' : Vmstate}, vm'.state ≠ .running →
      (if vm.stack + (STACK_SIZE - 2) < vm.stackTop then { vm with state := .crashed } else vm').state ≠
        .running := fun h' => by
    split
    · exact fun heq => by cases heq
    · exact h'
  unfold Vmstate.step
  cases hs : vm.state with
  | running => exact absurd hs h
  | stopped | crashed | noProgram => exact h
  | waitReport | waitMouseReport => exact hcrashed (by simp [hs])
  | delay => exact hcrashed (by simp [idleHardware, hs])
  | waitKey => exact hcrashed (by
      simp only [idle_timeout]
      simp [idleHardware, hs])
  | waitPhysKey => exact hcrashed (by
      simp only [idle_timeout]
      split <;> simp [idleHardware, hs])

/-- A run that no reading of the keyboard changes shows nothing, if the machine runs at its end. -/
theorem Passes.drives {P : Nat → Prop} (h : Passes s P vm vm') (hrun : vm'.state = .running) :
    ∃ n, Drives s n vm [] vm' ∧ vm.state = .running := by
  induction h with
  | refl => exact ⟨0, .refl _, hrun⟩
  | @step vm vm1 vm2 _ hstep _ ih =>
    obtain ⟨n, hn, hrun1⟩ := ih hrun
    have hrunning : vm.state = .running := by
      by_contra hne
      rw [← hstep idleHardware] at hrun1
      exact step_idle hne hrun1
    exact ⟨n + 1, .step hrunning hstep hn, hrunning⟩

/-! ## Any schedule -/

/-- A call that the firmware makes of a machine at work; its program lies in `s`. -/
def Call.Drives (s : Storage) : Call → Prop
  | .start _ _ => False
  | .step _ s' => s' = s
  | .keyboardReport _ | .mouseReport _ => True

/-- The call that a machine goes on with: a step if it runs, else the report that it waits with. -/
def Call.Moves (vm : Vmstate) : Call → Prop
  | .start _ _ => False
  | .step _ _ => vm.state = .running
  | .keyboardReport _ => vm.state = .waitReport
  | .mouseReport _ => vm.state = .waitMouseReport

/-- What the machine shows of itself at a call. -/
def Vmstate.shows (vm : Vmstate) : Call → List Shown
  | .keyboardReport _ => if vm.state = .waitReport then [.keyboard vm.keyboardreport] else []
  | .mouseReport _ => if vm.state = .waitMouseReport then [.mouse vm.mousereport] else []
  | .start _ _ | .step _ _ => []

/-- What it shows in the course of some calls. -/
def Vmstate.shown (vm : Vmstate) : List Call → List Shown
  | [] => []
  | c :: cs => vm.shows c ++ (vm.respond c).1.shown cs

theorem keyboardReport_idle (h : vm.state ≠ .waitReport) (r : KeyboardReport) :
    (vm.appendKeyboardReport r).1 = vm := by
  unfold Vmstate.appendKeyboardReport
  split
  · rfl
  · rfl

theorem mouseReport_idle (h : vm.state ≠ .waitMouseReport) (hpast : vm.PastOk) (r : MouseReport) :
    (vm.appendMouseReport r).1 = vm := by
  have hstill : { vm.mousereport with x := 0, y := 0 } = vm.mousereport := by
    obtain ⟨hx, hy⟩ := hpast.still h
    rw [← hx]
    exact congrArg (MouseReport.mk vm.mousereport.button vm.mousereport.x) (hx.trans hy.symm)
  unfold Vmstate.appendMouseReport
  split
  · rfl
  · show { vm with mousereport := { vm.mousereport with x := 0, y := 0 } } = vm
    rw [hstill]

theorem step_waiting (h : vm.state = .waitReport ∨ vm.state = .waitMouseReport)
    (hroom : vm.stackTop ≤ vm.stack + (STACK_SIZE - 2)) (hw : Hardware) : vm.step hw s = vm := by
  have hroom' : ¬ vm.stack + (STACK_SIZE - 2) < vm.stackTop := Nat.not_lt.mpr hroom
  unfold Vmstate.step
  rw [if_neg hroom']
  rcases h with h | h
  · simp [h, Status.active]
  · simp [h, Status.active]

/-- One call moves the machine along its run, or changes nothing. -/
theorem Drives.call (h : Drives s (n + 1) vm out vm') (hpast : vm.PastOk) {c : Call}
    (hc : c.Drives s) :
    (c.Moves vm → ∃ out', Drives s n (vm.respond c).1 out' vm' ∧ out = vm.shows c ++ out') ∧
      (¬ c.Moves vm → (vm.respond c).1 = vm ∧ vm.shows c = []) := by
  cases h with
  | @step _ _ vm1 _ _ hrun hstep h =>
    cases c with
    | start => exact hc.elim
    | step hw s' =>
      obtain rfl : s' = s := hc
      have hnext : (vm.respond (.step hw s')).1 = vm1 := hstep hw
      exact ⟨fun _ => ⟨out, hnext ▸ h, rfl⟩, fun hstays => absurd hrun hstays⟩
    | keyboardReport r =>
      have hne : vm.state ≠ .waitReport := by simp [hrun]
      exact ⟨fun hmoves => absurd hmoves hne, fun _ => ⟨keyboardReport_idle hne r, if_neg hne⟩⟩
    | mouseReport r =>
      have hne : vm.state ≠ .waitMouseReport := by simp [hrun]
      exact ⟨fun hmoves => absurd hmoves hne, fun _ => ⟨mouseReport_idle hne hpast r, if_neg hne⟩⟩
  | @keyboard _ _ vm1 _ out hwait hroom hasked h =>
    cases c with
    | start => exact hc.elim
    | step hw s' =>
      have hne : vm.state ≠ .running := by simp [hwait]
      exact ⟨fun hmoves => absurd hmoves hne, fun _ => ⟨step_waiting (.inl hwait) hroom hw, rfl⟩⟩
    | keyboardReport r =>
      have hnext : (vm.respond (.keyboardReport r)).1 = vm1 := hasked r
      refine ⟨fun _ => ⟨out, hnext ▸ h, ?_⟩, fun hstays => absurd hwait hstays⟩
      rw [Vmstate.shows, if_pos hwait]
      rfl
    | mouseReport r =>
      have hne : vm.state ≠ .waitMouseReport := by simp [hwait]
      exact ⟨fun hmoves => absurd hmoves hne, fun _ => ⟨mouseReport_idle hne hpast r, if_neg hne⟩⟩
  | @mouse _ _ vm1 _ out hwait hroom hasked h =>
    cases c with
    | start => exact hc.elim
    | step hw s' =>
      have hne : vm.state ≠ .running := by simp [hwait]
      exact ⟨fun hmoves => absurd hmoves hne, fun _ => ⟨step_waiting (.inr hwait) hroom hw, rfl⟩⟩
    | keyboardReport r =>
      have hne : vm.state ≠ .waitReport := by simp [hwait]
      exact ⟨fun hmoves => absurd hmoves hne, fun _ => ⟨keyboardReport_idle hne r, if_neg hne⟩⟩
    | mouseReport r =>
      have hnext : (vm.respond (.mouseReport r)).1 = vm1 := hasked r
      refine ⟨fun _ => ⟨out, hnext ▸ h, ?_⟩, fun hstays => absurd hwait hstays⟩
      rw [Vmstate.shows, if_pos hwait]
      rfl

/-- The machine has come through `vm'` in the course of the calls, and has shown `out` until then. -/
def CameThrough (vm : Vmstate) (cs : List Call) (out : List Shown) (vm' : Vmstate) : Prop :=
  ∃ cs1 cs2, cs = cs1 ++ cs2 ∧ vm.after cs1 = vm' ∧ vm.shown cs1 = out

theorem CameThrough.cons {c : Call} {cs : List Call} (h : CameThrough (vm.respond c).1 cs out vm') :
    CameThrough vm (c :: cs) (vm.shows c ++ out) vm' := by
  obtain ⟨cs1, cs2, rfl, hafter, rfl⟩ := h
  exact ⟨c :: cs1, cs2, rfl, hafter, rfl⟩

/-- Some calls leave less of the run, if they leave any: at least one step less if one of them moves
    the machine. -/
theorem Drives.calls (h : Drives s n vm out vm') (hpast : vm.PastOk) {cs : List Call}
    (hcs : ∀ c ∈ cs, c.Drives s) :
    CameThrough vm cs out vm' ∨ ∃ m out', Drives s m (vm.after cs) out' vm' ∧
      out = vm.shown cs ++ out' ∧ m ≤ n ∧ ((∃ c ∈ cs, c.Moves vm) → m < n) := by
  induction cs generalizing n vm out with
  | nil =>
    refine .inr ⟨n, out, h, rfl, Nat.le_refl n, ?_⟩
    rintro ⟨c, hc, -⟩
    cases hc
  | cons c cs ih =>
    cases n with
    | zero =>
      cases h
      exact .inl ⟨[], c :: cs, rfl, rfl, rfl⟩
    | succ n =>
      obtain ⟨hmoves, hstays⟩ := h.call hpast (hcs c List.mem_cons_self)
      have hcs' : ∀ c ∈ cs, c.Drives s := fun c hc => hcs c (List.mem_cons_of_mem _ hc)
      by_cases hc : c.Moves vm
      · obtain ⟨out', h', rfl⟩ := hmoves hc
        rcases ih h' (hpast.respond c) hcs' with hcame | ⟨m, out'', hm, rfl, hle, -⟩
        · exact .inl hcame.cons
        · exact .inr ⟨m, out'', hm, (List.append_assoc ..).symm, by omega, fun _ => by omega⟩
      · obtain ⟨hsame, hnothing⟩ := hstays hc
        have hcons : ∀ out, vm.shows c ++ out = out := fun out => by rw [hnothing, List.nil_append]
        rcases ih h hpast hcs' with hcame | ⟨m, out', hm, hout, hle, hlt⟩
        · rw [← hsame] at hcame
          exact .inl (hcons out ▸ hcame.cons)
        · refine .inr ⟨m, out', ?_, ?_, hle, ?_⟩
          · rw [Vmstate.after, hsame]
            exact hm
          · rw [Vmstate.shown, List.append_assoc, hcons, hsame]
            exact hout
          · rintro ⟨c', hmem, hc'⟩
            rcases List.mem_cons.mp hmem with rfl | hmem
            · exact absurd hc' hc
            · exact hlt ⟨c', hmem, hc'⟩

/-- Calls that step the machine at least once and ask it for both reports. -/
structure FullRound (s : Storage) (cs : List Call) : Prop where
  drives : ∀ c ∈ cs, c.Drives s
  step : ∃ hw, .step hw s ∈ cs
  keyboard : ∃ r, .keyboardReport r ∈ cs
  mouse : ∃ r, .mouseReport r ∈ cs

/-- A machine that has not come to the end is moved in a full round. -/
theorem FullRound.moves {cs : List Call} (hcs : FullRound s cs)
    (h : Drives s (n + 1) vm out vm') : ∃ c ∈ cs, c.Moves vm := by
  cases h with
  | step hrun =>
    obtain ⟨hw, hc⟩ := hcs.step
    exact ⟨_, hc, hrun⟩
  | keyboard hwait =>
    obtain ⟨r, hc⟩ := hcs.keyboard
    exact ⟨_, hc, hwait⟩
  | mouse hwait =>
    obtain ⟨r, hc⟩ := hcs.mouse
    exact ⟨_, hc, hwait⟩

theorem after_append (vm : Vmstate) (cs ds : List Call) :
    vm.after (cs ++ ds) = (vm.after cs).after ds := by
  induction cs generalizing vm with
  | nil => rfl
  | cons c cs ih => exact ih _

theorem shown_append (vm : Vmstate) (cs ds : List Call) :
    vm.shown (cs ++ ds) = vm.shown cs ++ (vm.after cs).shown ds := by
  induction cs generalizing vm with
  | nil => rfl
  | cons c cs ih =>
    rw [List.cons_append, Vmstate.shown, ih, Vmstate.shown, List.append_assoc]
    rfl

theorem pastOk_after (hpast : vm.PastOk) (cs : List Call) : (vm.after cs).PastOk := by
  induction cs generalizing vm with
  | nil => exact hpast
  | cons c cs ih => exact ih (hpast.respond c)

theorem CameThrough.append {cs : List Call} (h : CameThrough vm cs out vm') (ds : List Call) :
    CameThrough vm (cs ++ ds) out vm' := by
  obtain ⟨cs1, cs2, rfl, hafter, hshown⟩ := h
  exact ⟨cs1, cs2 ++ ds, List.append_assoc .., hafter, hshown⟩

theorem CameThrough.after {cs ds : List Call} (h : CameThrough (vm.after cs) ds out vm') :
    CameThrough vm (cs ++ ds) (vm.shown cs ++ out) vm' := by
  obtain ⟨ds1, ds2, rfl, rfl, rfl⟩ := h
  exact ⟨cs ++ ds1, ds2, (List.append_assoc ..).symm, after_append .., shown_append ..⟩

/-- Enough full rounds bring the machine to the end. -/
theorem Drives.rounds (h : Drives s n vm out vm') (hpast : vm.PastOk) {rounds : List (List Call)}
    (hfull : ∀ cs ∈ rounds, FullRound s cs) (hn : n ≤ rounds.length) :
    CameThrough vm rounds.flatten out vm' := by
  induction rounds generalizing n vm out with
  | nil =>
    obtain rfl : n = 0 := Nat.le_zero.mp hn
    cases h
    exact ⟨[], [], rfl, rfl, rfl⟩
  | cons cs rounds ih =>
    have hcs := hfull cs List.mem_cons_self
    rw [List.flatten_cons]
    rcases h.calls hpast hcs.drives with hcame | ⟨m, out', hm, rfl, hle, hlt⟩
    · exact hcame.append _
    · refine (ih hm (pastOk_after hpast cs) (fun cs hcs => hfull cs (List.mem_cons_of_mem _ hcs)) ?_).after
      rw [List.length_cons] at hn
      cases n with
      | zero => omega
      | succ n => exact Nat.le_of_lt_succ ((hlt (hcs.moves h)).trans_le hn)

/-- Whatever calls the firmware makes: what the machine has shown of itself is a beginning of `out`, or
    it has come through `vm'`, with all of `out` shown until then; and it comes there. -/
structure Delivers (s : Storage) (vm : Vmstate) (out : List Shown) (vm' : Vmstate) : Prop where
  safe : ∀ cs : List Call, (∀ c ∈ cs, c.Drives s) → CameThrough vm cs out vm' ∨ vm.shown cs <+: out
  comes : ∃ n, ∀ rounds : List (List Call), (∀ cs ∈ rounds, FullRound s cs) → n ≤ rounds.length →
    CameThrough vm rounds.flatten out vm'

theorem Drives.delivers (h : Drives s n vm out vm') (hpast : vm.PastOk) : Delivers s vm out vm' := by
  constructor
  · intro cs hcs
    rcases h.calls hpast hcs with hcame | ⟨m, rest, -, hout, -, -⟩
    · exact .inl hcame
    · exact .inr ⟨rest, hout.symm⟩
  · exact ⟨n, fun rounds hfull hn => h.rounds hpast hfull hn⟩

end KeyboardFirmware.Vm
