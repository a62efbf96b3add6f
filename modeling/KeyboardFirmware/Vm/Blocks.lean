/-
  The graph of a method on the machine.

  A machine that has the code of a method in storage follows the operand machine through the graph of
  the method (`Frame.graph_follows`): where this executes an instruction or jumps, the machine passes
  the code of it, and it carries the operands all the way.  What calls do is an assumption here
  (`Frame.CallsRun`).
-/
import KeyboardFirmware.Vm.Frames
import KeyboardFirmware.Vm.Methods

namespace KeyboardFirmware.Vm

open Compiler Lib

variable {gVars lVars : VarAllocation} {w w' : Watched} {s : Storage} {vm : Vmstate}
  {i : IRInstruction} {op : SyscallOp}

/-! ## Instructions in storage -/

/-- The machine at an address. -/
def Vmstate.stand (vm : Vmstate) (a : Nat) : Vmstate := { vm with ip := a }

theorem Vmstate.Ready.stand (h : vm.Ready) (a : Nat) : (vm.stand a).Ready := ⟨h.running, h.room⟩

theorem effect_stand (i : IRInstruction) (vm : Vmstate) (a : Nat) :
    effect gVars lVars i (vm.stand a) = (effect gVars lVars i vm).stand a := by
  cases i with
  | store k | load k =>
    simp only [effect]
    cases lVars.lookup k with
    | none => rfl
    | some v =>
      obtain ⟨slot, t⟩ := v
      cases t <;> rfl
  | gstore k | gload k =>
    simp only [effect]
    cases gVars.lookup k with
    | none => rfl
    | some v =>
      obtain ⟨slot, t⟩ := v
      cases t <;> rfl
  | dup t | pop t => cases t <;> rfl
  | arith t op => cases t <;> cases op <;> rfl
  | _ => rfl

theorem doSyscall_report (hop : op ∈ Vmstate.reportOps) (hw : Hardware) (vm : Vmstate) :
    vm.doSyscall hw op = vm.doSyscall idleHardware op := by
  simp only [Vmstate.reportOps, List.mem_cons, List.not_mem_nil, or_false] at hop
  rcases hop with rfl | rfl | rfl | rfl | rfl <;> rfl

/-- The system calls that change a report only pop their arguments, and perhaps wait. -/
theorem report_cases (hop : op ∈ Vmstate.reportOps) (vm : Vmstate) (hrun : vm.state = .running) :
    (vm.doSyscall idleHardware op).stack = vm.stack ∧
      (vm.doSyscall idleHardware op).stackTop ≤ vm.stackTop ∧
      ((vm.doSyscall idleHardware op).state = .running ∨
        (vm.doSyscall idleHardware op).state = .waitReport ∨
        (vm.doSyscall idleHardware op).state = .waitMouseReport) := by
  simp only [Vmstate.reportOps, List.mem_cons, List.not_mem_nil, or_false] at hop
  rcases hop with rfl | rfl | rfl | rfl | rfl
  · show (ite _ _ _ : Vmstate).stack = _ ∧ (ite _ _ _ : Vmstate).stackTop ≤ _ ∧
      ((ite _ _ _ : Vmstate).state = _ ∨ (ite _ _ _ : Vmstate).state = _ ∨ _)
    split
    · exact ⟨rfl, Nat.sub_le _ _, .inl hrun⟩
    · exact ⟨rfl, Nat.sub_le _ _, .inr (.inl rfl)⟩
  · exact ⟨rfl, Nat.sub_le _ _, .inr (.inl rfl)⟩
  · exact ⟨rfl, Nat.sub_le _ _, .inr (.inr rfl)⟩
  · exact ⟨rfl, Nat.sub_le _ _, .inr (.inr rfl)⟩
  · exact ⟨rfl, (Nat.sub_le _ _).trans (Nat.sub_le _ _), .inr (.inr rfl)⟩

/-- A machine that waits with a report is asked for it. -/
theorem drives_asked (hroom : vm.stackTop ≤ vm.stack + (STACK_SIZE - 2)) :
    ∃ n, Drives s n vm vm.waiting vm.asked := by
  cases hs : vm.state with
  | waitReport =>
    have hwaiting : vm.waiting = [.keyboard vm.keyboardreport] := by rw [Vmstate.waiting, hs]
    have hasked : ∀ r, (vm.appendKeyboardReport r).1 = vm.asked := fun r => by
      simp [Vmstate.appendKeyboardReport, Vmstate.asked, hs, Status.active]
    rw [hwaiting]
    exact ⟨1, .keyboard hs hroom hasked (.refl _)⟩
  | waitMouseReport =>
    have hwaiting : vm.waiting = [.mouse vm.mousereport] := by rw [Vmstate.waiting, hs]
    have hasked : ∀ r, (vm.appendMouseReport r).1 = vm.asked := fun r => by
      simp [Vmstate.appendMouseReport, Vmstate.asked, hs, Status.active]
    rw [hwaiting]
    exact ⟨1, .mouse hs hroom hasked (.refl _)⟩
  | _ =>
    refine ⟨0, ?_⟩
    rw [Vmstate.waiting, Vmstate.asked, hs]
    exact .refl _

/-- The machine goes from one address to another, and shows what `watch` says. -/
def Follows (s : Storage) (w : Watched) (a : Nat) (w' : Watched) (b : Nat) : Prop :=
  ∃ n out, w'.shown = w.shown ++ out ∧ Drives s n (w.vm.stand a) out (w'.vm.stand b)

theorem Follows.refl (w : Watched) (a : Nat) : Follows s w a w a :=
  ⟨0, [], (List.append_nil _).symm, .refl _⟩

theorem Follows.trans {w1 w2 : Watched} {a b c : Nat} (h : Follows s w a w1 b)
    (h' : Follows s w1 b w2 c) : Follows s w a w2 c := by
  obtain ⟨m, out, hout, hm⟩ := h
  obtain ⟨n, out', hout', hn⟩ := h'
  exact ⟨m + n, out ++ out', by rw [hout', hout, List.append_assoc], hm.trans hn⟩

section Loaded

variable {m : TMethod} {irm : IRMethod} {g : IRGraph Bytecode} {base : Nat} {p q : Pos}

/-- The code of a method is shorter than a jump can go. -/
theorem Loaded.addr_lt (hl : Loaded m irm gVars lVars g s base) (hp : irm.graph.Reachable p.1) :
    addr gVars lVars irm.graph g base p < base + 32768 := by
  obtain ⟨n, j⟩ := p
  obtain ⟨b, c, links, hb, hc, hplaced⟩ := hl.block hp
  rw [← List.take_append_drop j b.instrs] at hc
  obtain ⟨c1, c2, h1, -, rfl⟩ := instrsCode_append.mp hc
  have hsmall := hplaced.small
  rw [List.length_append] at hsmall
  rw [addr_of_node hb h1]
  dsimp only at hsmall ⊢
  omega

end Loaded

theorem straight_follows {code : List Bytecode} (hr : w.vm.Ready) (hi : Straight i = true)
    (hcode : instrCode gVars lVars i = .ok code) {a : Nat} (hat : CodeAt s a code)
    (hrun : (effect gVars lVars i w.vm).state = .running) :
    Follows s w a { w with vm := effect gVars lVars i w.vm } (a + code.length) := by
  obtain ⟨hpasses, -⟩ := instr_runs hi hcode (hr.stand a) hat
  have hsame : (effect gVars lVars i (w.vm.stand a)).advance code.length =
      (effect gVars lVars i w.vm).stand (a + code.length) := by
    have hip : (effect gVars lVars i (w.vm.stand a)).ip = a := by rw [effect_stand]; rfl
    rw [Vmstate.advance, hip, effect_stand]
    rfl
  rw [hsame] at hpasses
  obtain ⟨n, hn, -⟩ := hpasses.drives hrun
  exact ⟨n, [], (List.append_nil _).symm, hn⟩

theorem report_follows (hw : w.vm.Ready) (hop : op ∈ Vmstate.reportOps) {a : Nat}
    (hat : CodeAt s a [.syscall op]) : Follows s w a (w.report op) (a + 1) := by
  obtain ⟨hstack, htop, -⟩ := report_cases hop w.vm hw.running
  have hroom := hw.room
  have hsame : ∀ hw', (w.vm.stand a).step hw' s = (w.vm.doSyscall idleHardware op).stand (a + 1) := by
    intro hw'
    rw [step_exec (hw.stand a) hat rfl]
    show ((w.vm.stand a).advance 1).doSyscall hw' op = _
    rw [doSyscall_report hop]
    simp only [Vmstate.reportOps, List.mem_cons, List.not_mem_nil, or_false] at hop
    rcases hop with rfl | rfl | rfl | rfl | rfl
    · show ite _ _ _ = (ite _ _ _ : Vmstate).stand (a + 1)
      split <;> split <;> first | rfl | contradiction
    all_goals rfl
  obtain ⟨n, hn⟩ := @drives_asked s ((w.vm.doSyscall idleHardware op).stand (a + 1))
    (show (w.vm.doSyscall idleHardware op).stackTop ≤
      (w.vm.doSyscall idleHardware op).stack + (STACK_SIZE - 2) by omega)
  have hasked : ∀ vm : Vmstate, (vm.stand (a + 1)).asked = vm.asked.stand (a + 1) := fun vm => by
    cases hs : vm.state <;> simp [Vmstate.asked, Vmstate.stand, hs]
  rw [hasked] at hn
  exact ⟨n + 1, _, rfl, .step hw.running hsame hn⟩

/-- The instruction that leaves a method, in storage. -/
def leavingCode : Leaving → Bytecode
  | .returned v => .ret v.typ
  | .exited => .vmexit

/-! ## A method on the machine -/

namespace Frame

variable (F : Frame)

/-- Calls on the machine do what they do in the reference: from the instruction until the method has
    returned. -/
def CallsRun (s : Storage) (vm₀ : Vmstate) : Prop :=
  ∀ ⦃env env' : Env⦄ ⦃i : MethodID⦄ ⦃ts : List Typ⦄ ⦃t : Typ⦄ ⦃vs : List Val⦄ ⦃v : Val⦄
    ⦃bs : List VByte⦄ ⦃w : Watched⦄ ⦃a : Nat⦄, F.sig i = some (ts, t) → vs.map Val.typ = ts →
    F.call env i vs = some (v, env') → F.Carries vm₀ env (bs ++ vs.flatMap valBytes) w →
    F.Room ((bs ++ vs.flatMap valBytes).length + F.callRoom i) →
    CodeAt s a [.call, .immediateByte (BitVec.ofNat 8 i)] → a + 2 < 65536 →
    ∃ w', F.Carries vm₀ env' (bs ++ valBytes v) w' ∧ Follows s w a w' (a + 2)

variable {F} {env : Env} {bs : List VByte} {vm₀ : Vmstate} {m : TMethod} {irm : IRMethod}
  {g : IRGraph Bytecode} {base : Nat} {p q : Pos} {o o' : Operands}

theorem blocks_test (c : CondOp) (o : Operands) : F.blocks.test c (some o) =
    ((F.test c o).map fun r => (r.1, some r.2)).getD (false, none) := rfl

theorem Carries.running (h : F.Carries vm₀ env bs w) (hl : F.Layout vm₀) : w.vm.state = .running := by
  obtain ⟨vm1, hvars, hstack⟩ := h.displays
  have hstate : w.vm.state = vm1.state := (congrArg Vmstate.state hstack.control).trans rfl
  exact hstate.trans (hvars.state_eq.trans hl.running)

/-- A run that ends in order was in order, and once the method has been left nothing changes. -/
theorem graphSteps_open {G : IRGraph IRInstruction} {k : Nat} {x y : Pos × Option Operands}
    (hrun : GraphSteps F.blocks G k x y) (hx : InGraph G x.1) (hy : y.2 = some o')
    (hroom : F.Room o'.stack.length) :
    ∃ o, x.2 = some o ∧ F.Room o.stack.length ∧ (o.left ≠ none → o' = o) := by
  induction hrun with
  | refl => exact ⟨o', hy, hroom, fun _ => rfl⟩
  | @head _ x x1 y _ hstep _ ih =>
    obtain ⟨p, w⟩ := x
    obtain ⟨q, w1⟩ := x1
    rcases graphStep_cases hstep hx with ⟨i, hin, hexec⟩ | ⟨es, hends, hjump⟩
    · obtain ⟨o1, rfl, -⟩ := ih (hin.inside hx) hy
      obtain ⟨o, rfl, hexec'⟩ := Option.bind_eq_some_iff.mp hexec.symm
      obtain ⟨hroom, hleft⟩ := exec_open hexec'
      exact ⟨o, rfl, hroom, fun hne => absurd hleft hne⟩
    · obtain ⟨o1, rfl, hroom1, hsame⟩ := ih (hends.inside hx hjump) hy
      unfold jumpFrom at hjump
      split at hjump
      · obtain ⟨-, rfl⟩ := Prod.mk.inj (Option.some.inj hjump)
        exact ⟨o1, rfl, hroom1, hsame⟩
      · next c k d =>
        obtain ⟨-, htest⟩ := Prod.mk.inj (Option.some.inj hjump)
        cases w with
        | none => cases htest
        | some o =>
          cases ht : F.test c o with
          | none =>
            have hnone : F.blocks.test c (some o) = (false, none) := by
              rw [blocks_test, ht]
              rfl
            have hsame : none = some o1 := (congrArg Prod.snd hnone).symm.trans htest
            cases hsame
          | some r =>
            obtain ⟨hroom, hleft⟩ := test_open ht
            exact ⟨o, rfl, hroom, fun hne => absurd hleft hne⟩
      · cases hjump

/-- What an instruction does to the operands the machine does, or the method is about to be left. -/
theorem exec_follows (hl : F.Layout vm₀) (hcalls : F.CallsRun s vm₀) {a : Nat} {code : List Bytecode}
    (hcode : instrCode F.gVars F.lVars i = .ok code) (hat : CodeAt s a code) (ha : a + code.length < 65536)
    (hexec : F.exec i o = some o') (hw : F.Carries vm₀ o.env o.stack w) :
    (o'.left = none ∧ ∃ w', F.Carries vm₀ o'.env o'.stack w' ∧ Follows s w a w' (a + code.length)) ∨
      (isLeave i = true ∧ o' = { o with left := some i }) := by
  obtain ⟨hroom, hleft⟩ := exec_open hexec
  rw [exec_eq ⟨hroom, hleft⟩] at hexec
  obtain ⟨env, bs, left⟩ := o
  obtain rfl : left = none := hleft
  have hr := hw.ready hl hroom
  cases hi : Straight i with
  | true =>
    obtain ⟨hleft', hcarries⟩ := carries_act hl hi hexec hw
    exact .inl ⟨hleft', _, hcarries, straight_follows hr hi hcode hat (hcarries.running hl)⟩
  | false =>
    cases i with
    | call k =>
      obtain rfl := Except.ok.inj hcode
      simp only [act, Option.bind_eq_bind, Option.bind_eq_some_iff, Prod.exists] at hexec
      obtain ⟨ts, t, hsig, ⟨⟩, hguard, cs, vs, hpop, v, env', hcall, hres⟩ := hexec
      obtain rfl := Option.some.inj hres
      obtain ⟨hts, rfl⟩ := popVals_some hpop
      have hfits : (cs ++ vs.flatMap valBytes).length + F.callRoom k ≤ F.room := by
        simpa [guard] using hguard
      exact .inl ⟨rfl, hcalls hsig hts hcall hw hfits hat ha⟩
    | syscall op =>
      obtain rfl := Except.ok.inj hcode
      simp only [act, Option.bind_eq_bind, Option.bind_eq_some_iff, Prod.exists] at hexec
      obtain ⟨cs, vs, hpop, v, env', hsys, hres⟩ := hexec
      obtain rfl := Option.some.inj hres
      obtain ⟨-, rfl⟩ := popVals_some hpop
      obtain ⟨-, rfl, -⟩ := syscall_spec hsys
      obtain ⟨hop, hcarries⟩ := carries_syscall hl hw hroom hsys
      refine .inl ⟨rfl, _, ?_, report_follows hr hop hat⟩
      show F.Carries vm₀ env' (cs ++ valBytes .void) _
      rw [valBytes, List.append_nil]
      exact hcarries
    | «return» t =>
      obtain rfl := Option.some.inj hexec
      exact .inr ⟨rfl, rfl⟩
    | exit =>
      obtain rfl := Option.some.inj hexec
      exact .inr ⟨rfl, rfl⟩
    | dummy n => cases hexec
    | _ => cases hi

/-- A jump between blocks. -/
theorem jump_follows (hl : F.Layout vm₀) (hloaded : Loaded m irm F.gVars F.lVars g s base)
    (hp : irm.graph.Reachable p.1) {es : List (IREdge × Nat)} (hends : EndsAt irm.graph p es)
    (hjump : jumpFrom F.blocks es (some o) = some (q, some o')) (hroom : F.Room o.stack.length)
    (hleft : o.left = none) (hw : F.Carries vm₀ o.env o.stack w) : o'.left = none ∧
      ∃ w', F.Carries vm₀ o'.env o'.stack w' ∧
        Follows s w (addr F.gVars F.lVars irm.graph g base p) w'
          (addr F.gVars F.lVars irm.graph g base q) := by
  have hr := hw.ready hl hroom
  have hfollows : ∀ {d : Nat} {vm : Vmstate}, vm.state = .running →
      HandsOver irm.graph g s base p.1 d (w.vm.stand (addr F.gVars F.lVars irm.graph g base p))
        (vm.stand (base + blockStart g d)) →
      Follows s w (addr F.gVars F.lVars irm.graph g base p) { w with vm := vm }
        (addr F.gVars F.lVars irm.graph g base (d, 0)) := by
    intro d vm hrun hover
    obtain ⟨len, -, -, hpasses⟩ := hover.passes
    obtain ⟨n, hn, -⟩ := hpasses.drives hrun
    rw [addr_start]
    exact ⟨n, [], (List.append_nil _).symm, hn⟩
  unfold jumpFrom at hjump
  split at hjump
  · obtain ⟨rfl, hsame⟩ := Prod.mk.inj (Option.some.inj hjump)
    obtain rfl := Option.some.inj hsame
    exact ⟨hleft, _, hw, hfollows hr.running (hloaded.default hp hends (hr.stand _) rfl)⟩
  · next c k d =>
    obtain ⟨rfl, htest⟩ := Prod.mk.inj (Option.some.inj hjump)
    obtain ⟨env, bs, left⟩ := o
    obtain rfl : left = none := hleft
    cases hpop : popVal .byte bs with
    | none =>
      have hnone : F.blocks.test c (some ⟨env, bs, none⟩) = (false, none) := by
        rw [blocks_test, test, if_pos ⟨hroom, rfl⟩, hpop]
        rfl
      have hsame : none = some o' := (congrArg Prod.snd hnone).symm.trans htest
      cases hsame
    | some r =>
      obtain ⟨cs, v⟩ := r
      obtain ⟨hv, rfl⟩ := popVal_some hpop
      cases v with
      | short | void => cases hv
      | byte x =>
        have hblocks : F.blocks.test c (some ⟨env, cs ++ valBytes (.byte x), none⟩) =
            (vmIfCheck c x, some ⟨env, cs, none⟩) := by
          rw [blocks_test, test, if_pos ⟨hroom, rfl⟩, hpop]
          rfl
        have hsame : some ⟨env, cs, none⟩ = some o' := (congrArg Prod.snd hblocks).symm.trans htest
        obtain rfl := Option.some.inj hsame
        have hbranch : (F.blocks.test c (some ⟨env, cs ++ valBytes (.byte x), none⟩)).1 =
            vmIfCheck c x := congrArg Prod.fst hblocks
        obtain ⟨vm1, hvars, hstack⟩ := hw.displays
        have htop : w.vm.topByte = x := hstack.topByte
        have hover : HandsOver irm.graph g s base p.1 (if vmIfCheck c w.vm.topByte then k else d)
            (w.vm.stand (addr F.gVars F.lVars irm.graph g base p))
            ((w.vm.drop 1).stand
              (base + blockStart g (if vmIfCheck c w.vm.topByte then k else d))) :=
          hloaded.conditional hp hends (hr.stand _) rfl
        rw [htop, ← hbranch] at hover
        exact ⟨rfl, _, hw.operands fun _ hs => hs.drop rfl, hfollows hr.running hover⟩
  · cases hjump

/-- **The machine follows the graph**, to the same place or to the instruction that leaves the
    method. -/
theorem graph_follows (hl : F.Layout vm₀) (hcalls : F.CallsRun s vm₀)
    (hloaded : Loaded m irm F.gVars F.lVars g s base) (hbase : base ≤ 32768) {k : Nat}
    {x y : Pos × Option Operands} (hrun : GraphSteps F.blocks irm.graph k x y)
    (hx : InGraph irm.graph x.1) (hxo : x.2 = some o) (hyo : y.2 = some o')
    (hroom : F.Room o'.stack.length) (hleft : o.left = none) (hw : F.Carries vm₀ o.env o.stack w) :
    ∃ w' r, F.Carries vm₀ o'.env o'.stack w' ∧
      Follows s w (addr F.gVars F.lVars irm.graph g base x.1) w'
        (addr F.gVars F.lVars irm.graph g base r) ∧
      ∀ i, o'.left = some i → isLeave i = true ∧ irm.graph.Reachable r.1 ∧
        ∃ r', InstrsAt irm.graph [i] r r' := by
  induction hrun generalizing o w with
  | @refl x =>
    obtain rfl := Option.some.inj (hxo.symm.trans hyo)
    refine ⟨w, x.1, hw, .refl _ _, fun i hi => ?_⟩
    rw [hleft] at hi
    cases hi
  | @head _ x x1 y _ hstep hrest ih =>
    obtain ⟨p, w0⟩ := x
    obtain ⟨p1, w1⟩ := x1
    obtain rfl : w0 = some o := hxo
    have hx' : InGraph irm.graph p := hx
    rcases graphStep_cases hstep hx' with ⟨i, hin, hexec⟩ | ⟨es, hends, hjump⟩
    · obtain ⟨o1, rfl, -, hsame⟩ := graphSteps_open hrest (hin.inside hx') hyo hroom
      have hexec' : F.exec i o = some o1 := hexec.symm
      obtain ⟨c, hc, hat, hq⟩ := hloaded.instrsAt hx'.1 hin
      obtain ⟨c1, c2, h1, h2, rfl⟩ := instrsCode_cons.mp hc
      obtain rfl := Except.ok.inj h2
      rw [List.append_nil] at hat hq
      have hlt := hloaded.addr_lt (hin.inside hx').1
      rw [hq] at hlt
      rcases exec_follows hl hcalls h1 hat (hlt.trans_le (Nat.add_le_add_right hbase 32768)) hexec' hw
        with ⟨hleft1, w', hw', hgoes⟩ | ⟨hleave, rfl⟩
      · obtain ⟨w'', r, hw'', hgoes', hend⟩ := ih (hin.inside hx') rfl hyo hleft1 hw'
        have hq' : addr F.gVars F.lVars irm.graph g base p1 = _ := hq
        rw [hq'] at hgoes'
        exact ⟨w'', r, hw'', hgoes.trans hgoes', hend⟩
      · obtain rfl := hsame (by simp)
        refine ⟨w, p, hw, .refl _ _, fun j hj => ?_⟩
        obtain rfl := Option.some.inj hj
        exact ⟨hleave, hx'.1, p1, hin⟩
    · have hx1 : InGraph irm.graph p1 := hends.inside hx' hjump
      obtain ⟨o1, rfl, -, -⟩ := graphSteps_open hrest hx1 hyo hroom
      obtain ⟨o0, heq, hroom0, -⟩ := graphSteps_open (.head trivial hstep hrest) hx hyo hroom
      obtain rfl := Option.some.inj heq
      obtain ⟨hleft1, w', hw', hgoes⟩ := jump_follows hl hloaded hx'.1 hends hjump hroom0 hleft hw
      obtain ⟨w'', r, hw'', hgoes', hend⟩ := ih hx1 rfl hyo hleft1 hw'
      exact ⟨w'', r, hw'', hgoes.trans hgoes', hend⟩

/-! ## Runs of a method -/

theorem Carries.typed (h : F.Carries vm₀ env bs w) : F.Typed env := by
  obtain ⟨vm1, hvars, -⟩ := h.displays
  exact ⟨fun i slot t hi => (hvars.locals i slot t hi).1, fun i slot t hi => (hvars.globals i slot t hi).1⟩

/-- **A compiled method does what its statements say.**  The machine comes through every state of a run
    of them: its slots have the values of the variables and it has shown the same reports, and where
    the run ends it stands before the instruction that leaves the method, with the value on top. -/
theorem method_follows (hl : F.Layout vm₀) (hcalls : F.CallsRun s vm₀)
    (hloaded : Loaded m irm F.gVars F.lVars g s base) (hbase : base ≤ 32768) (hbody : F.PlainBody m.body)
    {st : MState Env} (hw : F.Carries vm₀ st.env [] w) {n : Nat} {c : Compiler.Config (Activation Env)}
    (hrun : MeaningSteps F.machine n (m.start ⟨st, none⟩) c) :
    ∃ w' a, F.Carries vm₀ c.state.state.env (c.ending.elim [] leavingBytes) w' ∧
      Follows s w base w' a ∧ ∀ l, c.ending = some l → CodeAt s a [leavingCode l] := by
  obtain ⟨hroom, k, p, hk⟩ := graph_runs hloaded.built hbody hw.typed hrun
  obtain ⟨w', r, hw', hgoes, hend⟩ :=
    graph_follows hl hcalls hloaded hbase hk (.start _) rfl rfl hroom rfl hw
  have hzero : addr F.gVars F.lVars irm.graph g base (0, 0) = base := by
    obtain ⟨st, -, -, hcovers, -⟩ := buildIRMethod_ok hloaded.built
    obtain ⟨-, hcov⟩ := nmapM_covers hcovers.wf hloaded.output
    rw [addr_start, blockStart_zero hcov.wf]
    rfl
  rw [hzero] at hgoes
  refine ⟨w', _, hw', hgoes, fun l hending => ?_⟩
  obtain ⟨-, hreach, r', hin⟩ := hend l.instr (by rw [operands, hending]; rfl)
  obtain ⟨code, hcode, hat, -⟩ := hloaded.instrsAt hreach hin
  have hleave : instrsCode F.gVars F.lVars [l.instr] = .ok [leavingCode l] := by
    cases l <;> rfl
  obtain rfl := Except.ok.inj (hleave.symm.trans hcode)
  exact hat

/-- **A compiled method shows what its statements say**, in whatever order the firmware steps the machine
    and asks for reports. -/
theorem method_delivers (hl : F.Layout vm₀) (hcalls : F.CallsRun s vm₀)
    (hloaded : Loaded m irm F.gVars F.lVars g s base) (hbase : base ≤ 32768) (hbody : F.PlainBody m.body)
    {st : MState Env} (hw : F.Carries vm₀ st.env [] w) (hpast : w.vm.PastOk) {n : Nat}
    {c : Compiler.Config (Activation Env)} (hrun : MeaningSteps F.machine n (m.start ⟨st, none⟩) c) :
    ∃ w' a out, F.Carries vm₀ c.state.state.env (c.ending.elim [] leavingBytes) w' ∧
      (∀ l, c.ending = some l → CodeAt s a [leavingCode l]) ∧
      c.state.state.env.shown = st.env.shown ++ out ∧
      Delivers s (w.vm.stand base) out (w'.vm.stand a) := by
  obtain ⟨w', a, hw', ⟨k, out, hout, hdrives⟩, hend⟩ :=
    method_follows hl hcalls hloaded hbase hbody hw hrun
  have hpast' : (w.vm.stand base).PastOk := { hpast with }
  rw [hw'.shown, hw.shown] at hout
  exact ⟨w', a, out, hw', hend, hout, hdrives.delivers hpast'⟩

end Frame

/-! ## A key that is tapped -/

/-- `void tap(byte n) { while (n) { press(4); release(4); --n; } }` -/
def tapKey : TMethod :=
  ⟨0, .void, [.byte], [], [],
    [.whileStatement (.localLoad .byte 0) (.block [] [
      .expressionStatement (.syscall .void .pressKey [.byteLiteral 4]),
      .expressionStatement (.syscall .void .releaseKey [.byteLiteral 4]),
      .expressionStatement
        (.typeConversion .void (.prefixExpression .byte .predecrement (.localLoad .byte 0)))])]⟩

/-- The image of a program with this method alone: no globals, one method, its entry, its code. -/
def tapKeyImage : Storage := fun a =>
  ([0, 1, 1, 0, 0, 0] ++
    [11, 75, 6, 0, 80, 16, 0, 24, 4, 87, 24, 4, 88, 11, 26, 49, 1, 80, 239, 255, 85])[a]?

theorem tapKey_loaded : ∃ irm g, Loaded tapKey irm [] [(0, 0, .byte)] g tapKeyImage 6 := by
  have hcompile : ∃ irm g code bytes, buildIRMethod tapKey = .ok irm ∧
      nmapM (outputBlock [] [(0, 0, .byte)]) irm.graph = .ok g ∧ scheduleBlocks g = .ok code ∧
      code.mapM bytecodeByte = .ok bytes ∧
      bytes = [11, 75, 6, 0, 80, 16, 0, 24, 4, 87, 24, 4, 88, 11, 26, 49, 1, 80, 239, 255, 85] :=
    ⟨_, _, _, _, rfl, rfl, rfl, rfl, rfl⟩
  obtain ⟨irm, g, code, bytes, hm, hg, hcode, hbytes, rfl⟩ := hcompile
  refine ⟨irm, g, hm, hg, code, _, hcode, hbytes, by decide, fun i b h => ?_⟩
  rw [tapKeyImage, List.getElem?_append_right (Nat.le_add_right 6 i)]
  rwa [show 6 + i - [0, 1, 1, 0, 0, (0 : Word8)].length = i from Nat.add_sub_cancel_left 6 i]

/-- Its frame: one byte, and no calls. -/
def tapKeyFrame : Frame where
  gVars := []
  lVars := [(0, 0, .byte)]
  sig _ := none
  callRoom _ := 0
  room := 4
  call _ _ _ := none
  called h := by cases h

/-- A machine that has entered it with the argument 1. -/
def tapKeyMachine : Vmstate :=
  { fiveMachine with code := 6, ip := 6, stackTop := 7, mem := fun a => if a = 6 then 1 else 0 }

/-- What it sees with the argument `n`. -/
def tapKeyEnv (n : VByte) : Env := ⟨fun x => if x = .local 0 then .byte n else .void, .clear, 0, []⟩

/-- With the argument 1 the key is pressed and released once. -/
def tapKeyShown : List Shown :=
  [.keyboard (.add .clear 4), .keyboard (.remove (.add .clear 4) 4)]

theorem tapKey_plain : tapKeyFrame.PlainBody tapKey.body := by
  have hn : tapKeyFrame.Plain .byte (.localLoad .byte 0) := @Plain.localLoad _ _ _ .byte 0 0 rfl
  have hkey : ∀ op, tapKeyFrame.Value (.syscall .void op [.byteLiteral 4]) := by
    intro op
    refine ⟨_, @Plain.syscall _ _ _ op [.byte] _ rfl fun x hx => ?_, show 1 ≤ 4 by decide⟩
    obtain rfl := List.mem_singleton.mp hx
    exact .byteLiteral 4
  have hless : tapKeyFrame.Value
      (.typeConversion .void (.prefixExpression .byte .predecrement (.localLoad .byte 0))) :=
    ⟨_, .discard (@Plain.prefixStep _ _ _ .byte 0 0 .predecrement rfl rfl (by decide)), by decide⟩
  exact ⟨⟨⟨hn, by decide⟩, hkey _, hkey _, hless, trivial⟩, trivial⟩

theorem tapKey_slot {i : VariableID} {slot : Nat} {t : Typ}
    (h : tapKeyFrame.lVars.lookup i = some (slot, t)) : i = 0 ∧ slot = 0 ∧ t = .byte := by
  cases i with
  | zero =>
    obtain ⟨rfl, rfl⟩ := Prod.mk.inj (Option.some.inj h)
    exact ⟨rfl, rfl, rfl⟩
  | succ i => cases h

theorem tapKey_layout : tapKeyFrame.Layout tapKeyMachine where
  running := rfl
  room := by decide
  frame := Nat.le_refl _
  top := by decide
  globals h := by cases h
  locals h := by
    obtain ⟨-, rfl, rfl⟩ := tapKey_slot h
    decide
  apart hne hi hj := absurd ((tapKey_slot hi).1.trans (tapKey_slot hj).1.symm) hne

theorem tapKey_carries :
    tapKeyFrame.Carries tapKeyMachine (tapKeyEnv 1) [] ⟨tapKeyMachine, []⟩ where
  displays := by
    refine ⟨tapKeyMachine, ⟨rfl, rfl, rfl, ?_, ?_, fun _ _ _ => rfl⟩, .start _⟩
    · intro i slot t h
      obtain ⟨rfl, rfl, rfl⟩ := tapKey_slot h
      refine ⟨rfl, fun i b hi => ?_⟩
      cases i with
      | zero => exact Option.some.inj hi
      | succ i => cases hi
    · intro i slot t h
      cases h
  shown := rfl

theorem tapKey_meaning : ∃ c,
    MeaningSteps tapKeyFrame.machine 8 (tapKey.start ⟨⟨tapKeyEnv 1, []⟩, none⟩) c ∧
      c.ending = some (.returned .void) ∧
      c.state.state.env = { tapKeyEnv 0 with shown := tapKeyShown } := by
  have hkey : (ExtraKeyboardReport.clear.add 4).remove 4 = .clear := by decide
  have hvars : Function.update (tapKeyEnv 1).vars (.local 0) (.byte 0) = (tapKeyEnv 0).vars := by
    funext x
    by_cases hx : x = .local 0 <;> simp [tapKeyEnv, hx]
  refine ⟨_, .head id rfl (.head id rfl (.head id rfl (.head id rfl (.head id rfl (.head id rfl
    (.head id rfl (.head id rfl (.refl _)))))))), rfl, ?_⟩
  show Env.mk (Function.update (tapKeyEnv 1).vars (.local 0) (.byte 0))
    ((ExtraKeyboardReport.clear.add 4).remove 4) 0 tapKeyShown = _
  rw [hvars, hkey]
  rfl

theorem method_delivers_tapKey : ∃ irm g, Loaded tapKey irm [] [(0, 0, .byte)] g tapKeyImage 6 ∧
    ∃ w' a, tapKeyFrame.Carries tapKeyMachine { tapKeyEnv 0 with shown := tapKeyShown } [] w' ∧
      CodeAt tapKeyImage a [.ret .void] ∧
      Delivers tapKeyImage (tapKeyMachine.stand 6) tapKeyShown (w'.vm.stand a) := by
  obtain ⟨irm, g, hloaded⟩ := tapKey_loaded
  obtain ⟨c, hrun, hending, henv⟩ := tapKey_meaning
  have hcalls : tapKeyFrame.CallsRun tapKeyImage tapKeyMachine := by
    intro _ _ _ _ _ _ _ _ _ _ hsig
    cases hsig
  have hpast : tapKeyMachine.PastOk := ⟨rfl, by decide, fun _ => ⟨rfl, rfl⟩, fun h => by cases h⟩
  obtain ⟨w', a, out, hw', hcode, hout, hdelivers⟩ := Frame.method_delivers tapKey_layout hcalls
    hloaded (by decide) tapKey_plain tapKey_carries hpast hrun
  rw [henv, hending] at hw'
  rw [henv] at hout
  obtain rfl : tapKeyShown = out := hout
  exact ⟨irm, g, hloaded, w', a, hw', hcode _ hending, hdelivers⟩

end KeyboardFirmware.Vm
