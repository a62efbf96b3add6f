/-
  A program on its machine.

  `vm_start_vm` lays the frame of the first method above the globals.  From there the machine follows
  the statements of the program, shows what they show in whatever order the firmware steps it and asks
  for reports, and stops where they end (`Startable.delivers`).
-/
import KeyboardFirmware.Vm.Invocations

namespace KeyboardFirmware.Vm

open Compiler Lib

variable {s : Storage} {a : Nat}

namespace Routines

variable {P : Routines}

/-- What a machine that has been started has in its slots and reports. -/
def startEnv (P : Routines) (lVars : VarAllocation) (vm : Vmstate) : Env where
  vars x :=
    match x with
    | .local j => slotVal lVars vm.mem (vm.currentFrame + 6) j
    | .global j => slotVal P.gVars vm.mem vm.stack j
  keyboard := vm.keyboardreport
  buttons := vm.mousereport.button
  shown := []

theorem start_spec {m : Method} {n : Nat} {vm : Vmstate} (triggerLkey : Word8)
    (hidle : ¬(vm.state = .noProgram ∨ vm.state.active)) (hcode : codeBase s vm.program = some vm.code)
    (hn : nglobalsAt s vm.program = some n) (hm : methodAt s vm.program 0 = some m) :
    vm.start s triggerLkey =
      { ((({ vm with state := .running, triggerLkey := triggerLkey } : Vmstate).pokePointer
          (vm.stack + n) 0).pokePointer (vm.stack + n + 4) 0) with
        ip := vm.code + m.codeOffset
        currentFrame := vm.stack + n
        stackTop := vm.stack + n + 6 + m.nlocals } := by
  obtain ⟨nglobals, h0, rfl⟩ := Option.map_eq_some_iff.mp hn
  obtain ⟨nmethods, h1, -⟩ := Option.map_eq_some_iff.mp hcode
  have haddr : ((vm.program : Int) + 2 + 4 * (0 : Int)).toNat = vm.program + 2 := by omega
  simp only [methodAt, haddr] at hm
  split at hm
  · next nargs nlocals lo hi h2 h3 h4 h5 =>
    obtain rfl := Option.some.inj hm
    simp [Vmstate.start, if_neg hidle, h0, h1, h2, h3, h4, h5, Vmstate.pokePointer]
  · cases hm

/-- What a program needs of its machine: it is idle, and there is room for globals and all frames. -/
structure Startable (P : Routines) (s : Storage) (vm : Vmstate) (r : Routine) (n : Nat) : Prop where
  idle : ¬(vm.state = .noProgram ∨ vm.state.active)
  past : vm.PastOk
  code : codeBase s vm.program = some vm.code
  globals : nglobalsAt s vm.program = some n
  main : P.find 0 = some r
  routines : ∀ i r, P.find i = some r → P.InStorage s vm.program vm.code i r
  slots : ∀ {j slot t}, P.gVars.lookup j = some (slot, t) → t ≠ .void ∧ slot + typeBytes t ≤ n
  room : n + 6 + r.nlocals + r.room ≤ STACK_SIZE - 2
  space : vm.stack + STACK_SIZE ≤ 65536

variable {vm : Vmstate} {r : Routine} {n d : Nat}

theorem Startable.layout (h : P.Startable s vm r n) (triggerLkey : Word8) :
    (P.frame d r.lVars r.room).Layout (vm.start s triggerLkey) := by
  have hr := h.routines 0 r h.main
  have hroom := h.room
  rw [start_spec triggerLkey h.idle h.code h.globals hr.entry]
  refine ⟨rfl, ?_, Nat.le_add_right _ _, Nat.le_add_right _ _, ?_, ?_, hr.apart⟩
  · show vm.stack + n + 6 + r.nlocals + r.room ≤ vm.stack + (STACK_SIZE - 2)
    omega
  · intro j slot t hj
    obtain ⟨ht, hslot⟩ := h.slots hj
    refine ⟨ht, ?_⟩
    show vm.stack + slot + typeBytes t ≤ vm.stack + n
    omega
  · intro j slot t hj
    obtain ⟨ht, hslot⟩ := hr.slots hj
    refine ⟨ht, ?_⟩
    show vm.stack + n + 6 + slot + typeBytes t ≤ vm.stack + n + 6 + r.nlocals + 1
    omega

theorem Startable.carries (h : P.Startable s vm r n) (triggerLkey : Word8) :
    (P.frame d r.lVars r.room).Carries (vm.start s triggerLkey)
      (P.startEnv r.lVars (vm.start s triggerLkey)) [] ⟨vm.start s triggerLkey, []⟩ := by
  have hpast := h.past.start (s := s) triggerLkey
  have hrun : (vm.start s triggerLkey).state ≠ .waitMouseReport := by
    rw [(h.layout (d := d) triggerLkey).running]
    exact fun heq => by cases heq
  obtain ⟨hx, hy⟩ := hpast.still hrun
  refine ⟨⟨_, ⟨rfl, rfl, ?_, holdsVars_slotVal _ _ _, holdsVars_slotVal _ _ _, fun _ _ _ => rfl⟩,
    .start _⟩, rfl⟩
  show _ = MouseReport.mk (vm.start s triggerLkey).mousereport.button 0 0
  rw [← hx]
  exact congrArg (MouseReport.mk _ _) (hy.trans hx.symm)

/-- Behind the return address of the first method is the end. -/
theorem Startable.last (h : P.Startable s vm r n) (triggerLkey : Word8) :
    (vm.start s triggerLkey).pointerAt (vm.start s triggerLkey).currentFrame = 0 := by
  rw [start_spec triggerLkey h.idle h.code h.globals (h.routines 0 r h.main).entry]
  have hmem : ∀ b, ((({ vm with state := .running, triggerLkey := triggerLkey } : Vmstate).pokePointer
      (vm.stack + n) 0).pokePointer (vm.stack + n + 4) 0).mem b =
      if b = vm.stack + n + 4 + 1 then 0 else if b = vm.stack + n + 4 then 0
      else if b = vm.stack + n + 1 then 0 else if b = vm.stack + n then 0 else vm.mem b := fun _ => rfl
  refine pointerAt_eq ((hmem _).trans ?_) ((hmem _).trans ?_) (by omega)
  · dsimp only
    rw [if_neg (by omega), if_neg (by omega), if_neg (by omega), if_pos rfl]
    rfl
  · dsimp only
    rw [if_neg (by omega), if_neg (by omega), if_pos rfl]
    rfl

/-- The instruction that leaves the first method stops the machine. -/
theorem Startable.stops (h : P.Startable s vm r n) {triggerLkey : Word8} {env : Env}
    {bs : List VByte} {w : Watched} {a : Nat} {l : Leaving}
    (hw : (P.frame d r.lVars r.room).Carries (vm.start s triggerLkey) env bs w)
    (hready : w.vm.Ready) (hat : CodeAt s a [leavingCode l]) (hw' : Hardware) :
    ((w.vm.stand a).step hw' s).state = .stopped := by
  cases l with
  | exited =>
    rw [step_exec (hready.stand a) hat rfl]
    rfl
  | returned v =>
    have htop := (h.layout (d := d) triggerLkey).top
    have hpointer :
        ((w.vm.stand a).advance 1).pointerAt ((w.vm.stand a).advance 1).currentFrame = 0 := by
      show w.vm.pointerAt w.vm.currentFrame = 0
      rw [hw.frame_eq, ← h.last triggerLkey, Vmstate.pointerAt, Vmstate.pointerAt, Vmstate.shortAt,
        Vmstate.shortAt, hw.below htop (by omega), hw.below htop (by omega)]
    rw [step_exec (hready.stand a) hat rfl]
    show (((w.vm.stand a).advance 1).ret v.typ).state = _
    unfold Vmstate.ret
    rw [if_pos hpointer]

/-- **A program does what its statements say.**  A machine that is started with it comes through every
    state of a run of the first method, with calls nested to any depth: the variables have their
    values in their slots, and whatever calls the firmware makes of the machine, it has shown a
    beginning of what the statements show, or all of it.  Where they end the machine stops. -/
theorem Startable.delivers (h : P.Startable s vm r n) (triggerLkey : Word8) {k : Nat}
    {c : Compiler.Config (Activation Env)}
    (hrun : MeaningSteps (envMachine (P.calls d)) k
      (r.method.start ⟨⟨P.startEnv r.lVars (vm.start s triggerLkey), []⟩, none⟩) c) :
    ∃ w a, (P.frame d r.lVars r.room).Carries (vm.start s triggerLkey) c.state.state.env
        (c.ending.elim [] leavingBytes) w ∧
      Delivers s (vm.start s triggerLkey) c.state.state.env.shown (w.vm.stand a) ∧
      (c.ending.isSome → ∀ hw, ((w.vm.stand a).step hw s).state = .stopped) := by
  have hr := h.routines 0 r h.main
  have hl : (P.frame d r.lVars r.room).Layout (vm.start s triggerLkey) := h.layout triggerLkey
  have hin : (P.frame d r.lVars r.room).Carries (vm.start s triggerLkey)
      (P.startEnv r.lVars (vm.start s triggerLkey)) [] ⟨vm.start s triggerLkey, []⟩ :=
    h.carries triggerLkey
  have hbody : (P.frame d r.lVars r.room).PlainBody r.method.body := hr.body
  have hstart := start_spec triggerLkey h.idle h.code h.globals hr.entry
  have hcalls := calls_run h.routines d hl (by rw [hstart]; rfl) (by rw [hstart]; rfl)
    (by rw [hstart]; exact h.space)
  obtain ⟨w, a, hw, ⟨m, out, hout, hdrives⟩, hend⟩ :=
    Frame.method_follows hl hcalls hr.loaded hr.near hbody hin hrun
  have hstand : (vm.start s triggerLkey).stand (vm.code + r.codeOffset) = vm.start s triggerLkey :=
    stand_ip (by rw [hstart])
  have hshown : c.state.state.env.shown = out := by
    rw [← hw.shown, hout]
    rfl
  refine ⟨w, a, hw, ?_, fun hsome hw' => ?_⟩
  · rw [hshown]
    rw [hstand] at hdrives
    exact hdrives.delivers (h.past.start triggerLkey)
  · obtain ⟨l, hl'⟩ := Option.isSome_iff_exists.mp hsome
    have hfits := (Frame.graph_runs hr.loaded.built hbody hin.typed hrun).1
    have hready : w.vm.Ready := hw.ready hl hfits
    exact h.stops hw hready (hend l hl') hw'

end Routines

end KeyboardFirmware.Vm
