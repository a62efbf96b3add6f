/-
  Compiled programs on their machine.

  An image of the compiler in storage has each method where the machine looks for it: the entry that
  `vm_start_vm` and `METHOD` read, the code behind it, and the slots that the code names
  (`Compiled.inStorage`).  So a compiled program that is started does what its statements say
  (`Compiled.program_delivers`).
-/
import KeyboardFirmware.Vm.Started

namespace KeyboardFirmware.Vm

open Compiler

variable {s : Storage} {p a : Nat} {m : TMethod} {irm : IRMethod} {gVars lVars : VarAllocation}
  {g : IRGraph Bytecode} {code : List Bytecode}

/-! ## Code in storage -/

theorem holds_of_codeAt (h : CodeAt s a code) :
    ∃ bytes, code.mapM bytecodeByte = .ok bytes ∧ s.Holds a bytes := by
  induction code generalizing a with
  | nil => exact ⟨[], rfl, fun i b hi => by cases hi⟩
  | cons c code ih =>
    obtain ⟨⟨b, hb, hs⟩, hrest⟩ := h
    obtain ⟨bytes, hbytes, hholds⟩ := ih hrest
    refine ⟨b :: bytes, ?_, fun i b' hi => ?_⟩
    · rw [List.mapM_cons, hb, hbytes]
      rfl
    · cases i with
      | zero =>
        obtain rfl := Option.some.inj hi
        exact hs
      | succ i =>
        rw [show a + (i + 1) = a + 1 + i by omega]
        exact hholds i b' hi

/-- Code that a jump can cross is loaded where it lies. -/
theorem Scheduled.toLoaded (h : Scheduled m irm gVars lVars g s a code) (hsmall : code.length < 32768) :
    Loaded m irm gVars lVars g s a := by
  obtain ⟨bytes, hbytes, hs⟩ := holds_of_codeAt h.stored
  exact ⟨h.built, h.output, code, bytes, h.scheduled, hbytes, length_of_mapM hbytes ▸ hsmall, hs⟩

/-- Only variables of a size have slots. -/
theorem allocateVarSlots_ne_void {vars : List TVariable} {acc res : VarAllocation × Word8}
    (h : vars.foldlM (fun (m : VarAllocation × Word8) v => do
      let size ← typeSize v.typ
      .ok ((v.id, m.2.toNat, v.typ) :: m.1, m.2 + size)) acc = .ok res) :
    ∀ t ∈ varTypes vars, t ≠ .void := by
  induction vars generalizing acc with
  | nil => exact fun t ht => by cases ht
  | cons v vars ih =>
    rw [List.foldlM_cons] at h
    obtain ⟨acc', hacc, hrest⟩ := bind_eq_ok.mp h
    obtain ⟨size, hsize, -⟩ := bind_eq_ok.mp hacc
    intro t ht
    rcases List.mem_cons.mp ht with rfl | ht
    · intro hvoid
      rw [show v.typ = .void from hvoid] at hsize
      cases hsize
    · exact ih hrest t ht

theorem SlotsRight.within {ts : List Typ} {slots : VarAllocation} {size : Nat}
    {addr : Vmstate → VByte → Nat} {base : Vmstate → Nat} (h : SlotsRight ts slots size addr base)
    (hvoid : ∀ t ∈ ts, t ≠ .void) {j : VariableID} {slot : Nat} {t : Typ}
    (hj : slots.lookup j = some (slot, t)) : t ≠ .void ∧ slot + typeBytes t ≤ bytesOf ts := by
  have ht : t ≠ .void := by
    cases hget : ts[j]? with
    | none =>
      rw [h.only j (List.getElem?_eq_none_iff.mp hget)] at hj
      cases hj
    | some u =>
      rw [h.slot j u hget] at hj
      obtain ⟨-, rfl⟩ := Prod.mk.inj (Option.some.inj hj)
      exact hvoid u (List.mem_of_getElem? hget)
  have hpos := typeBytes_pos ht
  have hlast := (h.covers (slot + typeBytes t - 1)).mpr ⟨j, slot, t, hj, by omega, by omega⟩
  exact ⟨ht, by omega⟩

/-! ## What the compiler has made -/

section Compiled

variable {parse : String → Except String (List Declaration)} {source : String}
  {decs : List Declaration} {ast : TProgram} {ir : IRProgram} {bp : BytecodeProgram}
  {image : List Word8} {P : Routines} {i : MethodID} {r : Routine} {vm : Vmstate}

/-- A method of the program with its slots, its blocks and a body that its frame has room for. -/
structure Routines.IsCompiled (P : Routines) (decs : List Declaration) (ast : TProgram)
    (ir : IRProgram) (bp : BytecodeProgram) (i : MethodID) (r : Routine) (d : MethodDec) : Prop where
  dec : (methodDecs decs)[i]? = some d
  method : (constantEvalProgram ast).methods[i]? = some r.method
  args : r.args = d.argTypes
  nlocals : r.nlocals = bytesOf d.localTypes
  built : buildIRMethod r.method = .ok r.irm
  outputs : Outputs ir r.irm P.gVars r.lVars r.graph
  codeOffset : r.codeOffset = codeOffset bp.methods i
  body : (P.frame 0 r.lVars r.room).PlainBody r.method.body
  short : ∀ code, scheduleBlocks r.graph = .ok code → code.length < 32768

/-- The bytes of the image reach every method, every slot and every block. -/
structure Small (decs : List Declaration) (bp : BytecodeProgram) (p : Nat) : Prop where
  methods : (methodDecs decs).length ≤ 128
  slots : SlotsFit decs
  near : ∀ i < bp.methods.length, codeStart p bp.methods i ≤ 32768

theorem Routines.IsCompiled.built_irm {d : MethodDec} (hr : P.IsCompiled decs ast ir bp i r d)
    (h : Compiled parse source decs ast ir bp image) : ir.methods[i]? = some r.irm := by
  obtain ⟨optast, hopt, hir⟩ := h.built
  obtain rfl := Except.ok.inj hopt
  obtain ⟨irm, hirm, hbuilt⟩ := (buildIR_ok hir).2.2 i _ hr.method
  obtain rfl := Except.ok.inj (hr.built.symm.trans hbuilt)
  exact hirm

/-- **The image of the compiler has the methods in storage.** -/
theorem Compiled.inStorage (h : Compiled parse source decs ast ir bp image)
    (hs : s.Holds vm.program image) (hsmall : Small decs bp vm.program) {d : MethodDec}
    (hr : P.IsCompiled decs ast ir bp i r d) :
    P.InStorage s vm.program (vm.program + 2 + 4 * bp.methods.length) i r := by
  obtain ⟨-, ⟨n, hn⟩, -⟩ := hr.outputs
  have hirm := hr.built_irm h
  have hvars := h.localVars hr.dec hirm
  have hvalues : ∀ t ∈ d.localTypes, t ≠ .void := hvars.2 ▸ allocateVarSlots_ne_void hn
  have hright := (localSlots_iff hvars vm hn).mpr
    (hsmall.slots _ (.inr ⟨d, List.mem_of_getElem? hr.dec, rfl⟩))
  obtain ⟨bm, hbm, hentry, -⟩ := h.entry hs hr.dec
  obtain ⟨m, code, hsched⟩ := h.scheduled hs hirm hr.outputs
  have hi := (List.getElem?_eq_some_iff.mp hbm).1
  have hlen := h.methods_length
  have hnear := hsmall.near i hi
  rw [codeStart, ← hr.codeOffset] at hnear
  have hsize := hright.size
  have hfits : bytesOf r.args ≤ bytesOf d.localTypes := hr.args ▸ argBytes_le d
  refine ⟨?_, ?_, ?_, hnear, hr.body, ?_, ?_, ?_, ?_⟩
  · exact (hi.trans_eq hlen).trans_le hsmall.methods
  · rw [hentry, ← hr.args, ← hr.codeOffset, hr.nlocals, hsize,
      Nat.mod_eq_of_lt (show bytesOf r.args < 256 by omega),
      Nat.mod_eq_of_lt (show r.codeOffset < 65536 by omega)]
  · have hstored := hsched.stored
    rw [codeStart, ← hr.codeOffset] at hstored
    exact Scheduled.toLoaded ⟨hr.built, hsched.output, hsched.scheduled, hstored⟩
      (hr.short code hsched.scheduled)
  · intro j t hj
    rw [hr.args] at hj ⊢
    obtain ⟨hget, hoffset⟩ := argTypes_slot hj
    rw [hright.slot j t hget, hoffset]
  · rw [hr.nlocals]
    exact hfits
  · intro j slot t hj
    rw [hr.nlocals]
    exact hright.within hvalues hj
  · intro j k slot slot' t t' hne hj hk
    exact hright.disjoint j k slot slot' t t' hne hj hk

/-- **A compiled program can be started.**  With its image in storage, an idle machine and room for the
    globals and the frames, the methods are where the machine looks for them. -/
theorem Compiled.startable (h : Compiled parse source decs ast ir bp image)
    (hs : s.Holds vm.program image) (hsmall : Small decs bp vm.program)
    (hmethods : ∀ i r, P.find i = some r → ∃ d, P.IsCompiled decs ast ir bp i r d)
    (hmain : P.find 0 = some r) (hidle : ¬(vm.state = .noProgram ∨ vm.state.active))
    (hpast : vm.PastOk) (hcode : codeBase s vm.program = some vm.code)
    (hroom : bytesOf (globalTypes decs) + 6 + r.nlocals + r.room ≤ STACK_SIZE - 2)
    (hspace : vm.stack + STACK_SIZE ≤ 65536) :
    P.Startable s vm r (bytesOf (globalTypes decs)) := by
  obtain ⟨hnglobals, hbase, -⟩ := binaryProgram_reads h.binary hs
  have hcount : bp.methods.length % 256 = bp.methods.length := by
    rw [h.methods_length]
    exact Nat.mod_eq_of_lt (hsmall.methods.trans_lt (by decide))
  rw [hcount] at hbase
  have hvmcode : vm.code = vm.program + 2 + 4 * bp.methods.length :=
    Option.some.inj (hcode.symm.trans hbase)
  obtain ⟨d, hd⟩ := hmethods 0 r hmain
  obtain ⟨n, hn⟩ := hd.outputs.globals
  have hright := (globalSlots_iff h.globalVars vm hn).mpr (hsmall.slots _ (.inl rfl))
  have hvalues : ∀ t ∈ globalTypes decs, t ≠ .void := h.globalVars.2 ▸ allocateVarSlots_ne_void hn
  refine ⟨hidle, hpast, hcode, ?_, hmain, fun i r hi => ?_, hright.within hvalues, hroom, hspace⟩
  · rw [hnglobals, h.nGlobals, BitVec.toNat_ofNat, hright.size]
  · obtain ⟨d, hd⟩ := hmethods i r hi
    exact hvmcode ▸ h.inStorage hs hsmall hd

/-- **A compiled program does what its statements say.**  Its image in storage, the program is started.
    The machine comes through every state of a run of the first method, with calls nested to any
    depth; whatever calls the firmware makes of it, it has shown a beginning of what the statements
    show, or all of it.  Where they end it stops. -/
theorem Compiled.program_delivers (h : Compiled parse source decs ast ir bp image)
    (hs : s.Holds vm.program image) (hsmall : Small decs bp vm.program)
    (hmethods : ∀ i r, P.find i = some r → ∃ d, P.IsCompiled decs ast ir bp i r d)
    (hmain : P.find 0 = some r) (hidle : ¬(vm.state = .noProgram ∨ vm.state.active))
    (hpast : vm.PastOk) (hcode : codeBase s vm.program = some vm.code)
    (hroom : bytesOf (globalTypes decs) + 6 + r.nlocals + r.room ≤ STACK_SIZE - 2)
    (hspace : vm.stack + STACK_SIZE ≤ 65536) (triggerLkey : Word8) {d k : Nat}
    {c : Compiler.Config (Activation Env)}
    (hrun : MeaningSteps (envMachine (P.calls d)) k
      (r.method.start ⟨⟨P.startEnv r.lVars (vm.start s triggerLkey), []⟩, none⟩) c) :
    ∃ w a, (P.frame d r.lVars r.room).Carries (vm.start s triggerLkey) c.state.state.env
        (c.ending.elim [] leavingBytes) w ∧
      Delivers s (vm.start s triggerLkey) c.state.state.env.shown (w.vm.stand a) ∧
      (c.ending.isSome → ∀ hw, ((w.vm.stand a).step hw s).state = .stopped) :=
  (h.startable hs hsmall hmethods hmain hidle hpast hcode hroom hspace).delivers triggerLkey
    hrun

end Compiled

/-! ## A program with a call -/

/-- `void main() { tap(4); }  void tap(byte key) { pressKey(key); releaseKey(key); }` -/
def tapDecs : List Declaration :=
  [.methodDeclaration .void "main" []
      [.expressionStatement (.methodInvocation "tap" [.byteLiteral 4])],
    .methodDeclaration .void "tap" [(.byte, "key")]
      [.expressionStatement (.methodInvocation "pressKey" [.variableAccess "key"]),
        .expressionStatement (.methodInvocation "releaseKey" [.variableAccess "key"])]]

/-- The text of `tapDecs`. -/
def tapText : String :=
  "void main() { tap(4); }  void tap(byte key) { pressKey(key); releaseKey(key); }"

/-- Its image: no globals, the entries of two methods, and their code. -/
def tapBytes : List Word8 :=
  [0, 2, 0, 0, 0, 0, 1, 1, 5, 0, 24, 4, 82, 1, 85, 11, 87, 11, 88, 85]

/-- The image alone in storage. -/
def tapImage : Storage := fun a => tapBytes[a]?

/-- `void tap(byte key) { pressKey(key); releaseKey(key); }` -/
def tapMethod : TMethod :=
  ⟨1, .void, [.byte], [⟨0, .byte⟩], [("key", 0)], [
    .expressionStatement (.syscall .void .pressKey [.localLoad .byte 0]),
    .expressionStatement (.syscall .void .releaseKey [.localLoad .byte 0])]⟩

/-- `void main() { tap(4); }` -/
def tapMain : TMethod :=
  ⟨0, .void, [], [], [],
    [.expressionStatement (.methodCall .void 1 [.byteLiteral 4])]⟩

/-- The two methods. -/
def tapRoutines (irm0 irm1 : IRMethod) (g0 g1 : IRGraph Bytecode) : Routines where
  gVars := []
  find
    | 0 => some ⟨tapMain, irm0, g0, [], [], .void, 0, 0, 9⟩
    | 1 => some ⟨tapMethod, irm1, g1, [(0, 0, .byte)], [.byte], .void, 1, 5, 1⟩
    | _ => none

/-- A machine that has not been started. -/
def tapMachine : Vmstate :=
  { fiveMachine with state := .stopped, code := 10, mem := fun _ => 0 }

section Tap

variable {irm0 irm1 : IRMethod} {g0 g1 : IRGraph Bytecode}

theorem tapMain_plain : ((tapRoutines irm0 irm1 g0 g1).frame 0 [] 9).PlainBody tapMain.body := by
  refine ⟨⟨_, @Plain.methodCall _ _ _ .void 1 [.byte] _ rfl rfl fun x hx => ?_, ?_⟩, trivial⟩
  · obtain rfl := List.mem_singleton.mp hx
    exact .byteLiteral 4
  · show 9 ≤ 9
    decide

theorem tapMethod_plain :
    ((tapRoutines irm0 irm1 g0 g1).frame 0 [(0, 0, .byte)] 1).PlainBody tapMethod.body := by
  have hkey : ∀ op, ((tapRoutines irm0 irm1 g0 g1).frame 0 [(0, 0, .byte)] 1).Value
      (.syscall .void op [.localLoad .byte 0]) := by
    intro op
    refine ⟨_, @Plain.syscall _ _ _ op [.byte] _ rfl fun x hx => ?_, show 1 ≤ 1 by decide⟩
    obtain rfl := List.mem_singleton.mp hx
    exact @Plain.localLoad _ _ _ .byte 0 0 rfl
  exact ⟨hkey _, hkey _, trivial⟩

/-- A key that is pressed and released. -/
def Env.tapped (env : Env) (key : Word8) : Env :=
  (env.showKeyboard (env.keyboard.add key)).showKeyboard ((env.keyboard.add key).remove key)

theorem tapMethod_returns (call : Env → MethodID → List Val → Option (Val × Env)) (env : Env) :
    (⟨tapMethod, irm1, g1, [(0, 0, .byte)], [.byte], .void, 1, 5, 1⟩ : Routine).Returns call env
      [.byte 4] .void (env.tapped 4) := by
  refine ⟨rfl, rfl, fun locals hlocals => ?_⟩
  have hkey : locals 0 = .byte 4 := hlocals 0 _ rfl
  have hpress : meaningStep (envMachine call) (tapMethod.start ⟨⟨env.entered locals, []⟩, none⟩) =
      some (goesOn [.expressionStatement (.syscall .void .releaseKey [.localLoad .byte 0])] .done
        ⟨(env.entered locals).showKeyboard (env.keyboard.add 4), [.syscall .pressKey [.byte 4]]⟩) := by
    simp [tapMethod, TMethod.start, meaningStep, voidT, evalT, evalArgs, MState.syscall, envMachine,
      Env.entered, hkey, Env.syscall, goesOn]
  have hrelease : meaningStep (envMachine call)
      (goesOn [.expressionStatement (.syscall .void .releaseKey [.localLoad .byte 0])] .done
        ⟨(env.entered locals).showKeyboard (env.keyboard.add 4), [.syscall .pressKey [.byte 4]]⟩) =
      some (goesOn [] .done ⟨(env.entered locals).tapped 4,
        [.syscall .releaseKey [.byte 4], .syscall .pressKey [.byte 4]]⟩) := by
    simp [meaningStep, voidT, evalT, evalArgs, MState.syscall, envMachine, Env.entered, hkey,
      Env.syscall, goesOn, Env.showKeyboard, Env.tapped]
  exact ⟨2, _, .head id hpress (.head id hrelease (.refl _)), rfl, rfl⟩

theorem tapMain_meaning (env : Env) : ∃ c,
    MeaningSteps (envMachine ((tapRoutines irm0 irm1 g0 g1).calls 1)) 1
        (tapMain.start ⟨⟨env, []⟩, none⟩) c ∧
      c.ending = some (.returned .void) ∧ c.state.state.env = env.tapped 4 := by
  have hcall : (tapRoutines irm0 irm1 g0 g1).calls 1 env 1 [.byte 4] = some (.void, env.tapped 4) :=
    Routines.calls_eq _ rfl (tapMethod_returns _ env)
  have hcall' : (tapRoutines irm0 irm1 g0 g1).calls 1 env 1 [.byte 4#8] = some (.void, env.tapped 4) :=
    hcall
  have hstep : meaningStep (envMachine ((tapRoutines irm0 irm1 g0 g1).calls 1))
      (tapMain.start ⟨⟨env, []⟩, none⟩) =
        some (goesOn [] .done ⟨env.tapped 4, [.call 1 [.byte 4]]⟩) := by
    simp [tapMain, TMethod.start, meaningStep, voidT, evalT, evalArgs, MState.call, envMachine, hcall',
      goesOn]
  exact ⟨_, .head id hstep (.refl _), rfl, rfl⟩

end Tap

theorem tap_slotsFit : SlotsFit tapDecs := by
  rintro ts (rfl | ⟨d, hd, rfl⟩)
  · decide
  · revert d
    decide

theorem tap_compiled : ∃ ast ir bp irm0 irm1 g0 g1,
    Compiled (fun _ => .ok tapDecs) tapText tapDecs ast ir bp tapBytes ∧ Small tapDecs bp 0 ∧
      ∀ i r, (tapRoutines irm0 irm1 g0 g1).find i = some r →
        ∃ d, (tapRoutines irm0 irm1 g0 g1).IsCompiled tapDecs ast ir bp i r d := by
  have hsort : sortMainFirst tapDecs = tapDecs := by
    simp [sortMainFirst, tapDecs, List.mergeSort, List.MergeSort.Internal.splitInTwo, mainFirst, isMain]
  have hparsed : parseProgram (fun _ => .ok tapDecs) tapText = .ok tapDecs :=
    parseProgram_sorted rfl hsort rfl
  obtain ⟨ast, ir, bp, irm0, irm1, g0, g1, code0, code1, htyped, hbuilt, houtput, hbinary, hmethods,
      hirm0, hirm1, hout0, hout1, hoffset, hnear, hcode0, hcode1, hlen0, hlen1⟩ :
      ∃ ast ir bp irm0 irm1 g0 g1 code0 code1, buildTProgram tapDecs = .ok ast ∧
        buildIR (constantEvalProgram ast) = .ok ir ∧ outputProgram ir = .ok bp ∧
        binaryProgram bp = .ok tapBytes ∧
        (constantEvalProgram ast).methods = [tapMain, tapMethod] ∧
        buildIRMethod tapMain = .ok irm0 ∧ buildIRMethod tapMethod = .ok irm1 ∧
        Outputs ir irm0 [] [] g0 ∧ Outputs ir irm1 [] [(0, 0, .byte)] g1 ∧
        codeOffset bp.methods 1 = 5 ∧ (∀ i < bp.methods.length, codeStart 0 bp.methods i ≤ 32768) ∧
        scheduleBlocks g0 = .ok code0 ∧ scheduleBlocks g1 = .ok code1 ∧ code0.length < 32768 ∧
        code1.length < 32768 :=
    ⟨_, _, _, _, _, _, _, _, _, rfl, rfl, rfl, rfl, rfl, rfl, rfl, ⟨⟨0, rfl⟩, ⟨0, rfl⟩, rfl⟩,
      ⟨⟨0, rfl⟩, ⟨1, rfl⟩, rfl⟩, rfl, by decide, rfl, rfl, by decide, by decide⟩
  refine ⟨ast, ir, bp, irm0, irm1, g0, g1, ⟨hparsed, htyped, ⟨_, rfl, hbuilt⟩, houtput, hbinary⟩,
    ⟨by decide, tap_slotsFit, hnear⟩, fun i r h => ?_⟩
  rcases i with _ | _ | i
  · obtain rfl := Option.some.inj h
    refine ⟨_, rfl, by rw [hmethods]; rfl, rfl, rfl, hirm0, hout0, rfl, tapMain_plain, fun code hcode => ?_⟩
    obtain rfl := Except.ok.inj (hcode.symm.trans hcode0)
    exact hlen0
  · obtain rfl := Option.some.inj h
    refine ⟨_, rfl, by rw [hmethods]; rfl, rfl, rfl, hirm1, hout1, hoffset.symm, tapMethod_plain,
      fun code hcode => ?_⟩
    obtain rfl := Except.ok.inj (hcode.symm.trans hcode1)
    exact hlen1
  · cases h

theorem program_delivers_tap : ∃ decs ast ir bp vm',
    Compiled (fun _ => .ok tapDecs) tapText decs ast ir bp tapBytes ∧
      Delivers tapImage (tapMachine.start tapImage 0) tapKeyShown vm' ∧
      ∀ hw, (vm'.step hw tapImage).state = .stopped := by
  obtain ⟨ast, ir, bp, irm0, irm1, g0, g1, h, hsmall, hmethods⟩ := tap_compiled
  obtain ⟨c, hrun, hending, henv⟩ := @tapMain_meaning irm0 irm1 g0 g1
    ((tapRoutines irm0 irm1 g0 g1).startEnv [] (tapMachine.start tapImage 0))
  have hs : Storage.Holds tapImage tapMachine.program tapBytes := holds_image tapBytes
  have hidle : ¬(tapMachine.state = .noProgram ∨ tapMachine.state.active) := by decide
  have hpast : tapMachine.PastOk := ⟨rfl, by decide, fun _ => ⟨rfl, rfl⟩, fun h => by cases h⟩
  obtain ⟨w, a, -, hdelivers, hstops⟩ := h.program_delivers hs hsmall hmethods rfl hidle
    hpast rfl (show 15 ≤ 94 by decide) (by decide) 0 hrun
  rw [henv] at hdelivers
  exact ⟨_, ast, ir, bp, _, h, hdelivers, hstops (by rw [hending]; rfl)⟩

end KeyboardFirmware.Vm
