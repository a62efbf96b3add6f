/-
  Writes to global variables on the machine.

  Every write ends in the instruction `gstore`, and the encoder gives `gstore` the opcode of a load.  So
  the written value stays on the stack, the old value of the global is pushed on top of it, and the
  global keeps its bytes.
-/
import KeyboardFirmware.Vm.Loaded
import KeyboardFirmware.Vm.Arithmetic
import KeyboardFirmware.Compiler.GraphRun

namespace KeyboardFirmware.Vm

open Compiler

/-! ## Where a write stands -/

/-- The expressions that write the global `i` of type `t`. -/
inductive WritesGlobal (t : Typ) (i : VariableID) : TExpression → Prop
  | assignment (e : TExpression) : WritesGlobal t i (.globalStore t i e)
  | prefixStep {op : PrefixOp} : op = .preincrement ∨ op = .predecrement →
      WritesGlobal t i (.prefixExpression t op (.globalLoad t i))
  | postfixStep (op : PostfixOp) : WritesGlobal t i (.postfixExpression t (.globalLoad t i) op)

/-- The code of an expression in a context. -/
def codeIn (G : IRGraph IRInstruction) : ExpressionContext → TExpression → PosRel
  | .value, e => (exprIn G e).value
  | .void, e => (exprIn G e).void

/-- The code that computes the value that a write is to store. -/
def computeIn (G : IRGraph IRInstruction) (c : ExpressionContext) : TExpression → PosRel
  | .globalStore _ _ e => (exprIn G e).value
  | .prefixExpression t op (.globalLoad _ i) =>
    InstrsAt G [.gload i, irConst t 1, mkPrefixInstr t op]
  | .postfixExpression t (.globalLoad _ i) op =>
    InstrsAt G ([.gload i] ++ (if c = .value then [.dup t] else []) ++
      [irConst t 1, mkPostfixInstr t op])
  | _ => fun _ _ => False

/-- Whether the value that is written is also the value of the write; `x++` has kept the old one. -/
def keepsValue : ExpressionContext → TExpression → Bool
  | .void, _ => false
  | .value, .postfixExpression .. => false
  | .value, _ => true

/-- The instructions that then are to store it. -/
def storeInstrs (c : ExpressionContext) (t : Typ) (i : VariableID) (e : TExpression) :
    List IRInstruction :=
  (if keepsValue c e then [.dup t] else []) ++ [.gstore i]

variable {G : IRGraph IRInstruction} {t : Typ} {i : VariableID} {p q : Pos} {e : TExpression}

theorem instrsAt_append {is js : List IRInstruction} (h : InstrsAt G (is ++ js) p q) :
    ∃ r, InstrsAt G is p r ∧ InstrsAt G js r q := by
  obtain ⟨rfl, b, hb, rest, hrest⟩ := h
  refine ⟨(p.1, p.2 + is.length), ⟨rfl, b, hb, js ++ rest, ?_⟩, ?_, b, hb, rest, ?_⟩
  · rw [← hrest, List.append_assoc]
  · rw [List.length_append, ← Nat.add_assoc]
  · show js ++ rest = b.instrs.drop (p.2 + is.length)
    rw [← List.drop_drop, ← hrest, List.append_assoc, List.drop_left]

/-- **Where the generator puts a write**: it computes a value, and then is to store it. -/
theorem codeIn_writesGlobal (he : WritesGlobal t i e) (c : ExpressionContext) (hin : codeIn G c e p q) :
    ∃ r, computeIn G c e p r ∧ InstrsAt G (storeInstrs c t i e) r q := by
  cases he with
  | assignment e =>
    cases c with
    | value => exact hin
    | void => exact hin
  | prefixStep hop =>
    rcases hop with rfl | rfl
    all_goals
      cases c with
      | value => exact instrsAt_append hin
      | void => exact instrsAt_append hin
  | postfixStep op =>
    cases c with
    | value => exact instrsAt_append hin
    | void => exact instrsAt_append hin

/-- What is computed is computed in blocks that can run. -/
theorem reachable_of_computeIn {c : ExpressionContext} {r : Pos} (hp : G.Reachable p.1)
    (h : computeIn G c e p r) : G.Reachable r.1 := by
  have hinstrs : ∀ {is : List IRInstruction}, InstrsAt G is p r → G.Reachable r.1 := by
    rintro is ⟨rfl, -⟩
    exact hp
  cases e with
  | globalStore => exact exprIn_reachable h hp
  | prefixExpression t op e =>
    cases e with
    | globalLoad => exact hinstrs h
    | _ => exact h.elim
  | postfixExpression t e op =>
    cases e with
    | globalLoad => exact hinstrs h
    | _ => exact h.elim
  | _ => exact h.elim

/-! ## What the machine does -/

/-- A write as it should be: the value on top of the stack stands in the global at `a`, is taken from
    the stack unless it is kept, and nothing else has changed. -/
structure Stores (a : Nat) (v : Val) (kept : Bool) (vm vm' : Vmstate) : Prop where
  stored : ∀ k w, (valBytes v)[k]? = some w → vm'.mem (a + k) = w
  top : vm'.stackTop + (if kept then 0 else (valBytes v).length) = vm.stackTop
  others : ∀ b ≤ vm'.stackTop, b < a ∨ a + (valBytes v).length ≤ b → vm'.mem b = vm.mem b
  control : vm'.control = vm.control

theorem pushFrom_stackTop (vm : Vmstate) (t : Typ) (a : Nat) :
    (vm.pushFrom t a).stackTop = vm.stackTop + typeBytes t := by
  cases t <;> rfl

theorem dup_stackTop (vm : Vmstate) (ht : t ≠ .void) :
    (vm.dup t).stackTop = vm.stackTop + typeBytes t := by
  cases t with
  | void => exact absurd rfl ht
  | byte | short => rfl

theorem dup_control (vm : Vmstate) : (vm.dup t).control = vm.control := by
  cases t <;> rfl

theorem dup_ready {vm : Vmstate} (hr : vm.Ready) (ht : t ≠ .void)
    (hroom : vm.stackTop + typeBytes t ≤ vm.stack + (STACK_SIZE - 2)) (n : Nat) :
    ((vm.dup t).advance n).Ready := by
  refine ⟨?_, ?_⟩
  · have hstate : (vm.dup t).control.state = vm.control.state := by rw [dup_control]
    exact hstate.trans hr.running
  · have hstack : (vm.dup t).control.stack = vm.control.stack := by rw [dup_control]
    show (vm.dup t).stackTop ≤ (vm.dup t).stack + _
    have hstack' : (vm.dup t).stack = vm.stack := hstack
    rw [dup_stackTop vm ht, hstack']
    exact hroom

variable {m : TMethod} {irm : IRMethod} {gVars lVars : VarAllocation} {g : IRGraph Bytecode}
  {s : Storage} {base slot : Nat}

/-- The instructions that are to store a value leave it on the stack and push the old value. -/
theorem storeInstrs_run (hl : Loaded m irm gVars lVars g s base)
    (hslot : gVars.lookup i = some (slot, t)) (ht : t ≠ .void) {c : ExpressionContext}
    (hp : irm.graph.Reachable p.1) (hin : InstrsAt irm.graph (storeInstrs c t i e) p q) {vm : Vmstate}
    (hr : vm.Ready) (hroom : vm.stackTop + typeBytes t ≤ vm.stack + (STACK_SIZE - 2))
    (hip : vm.ip = addr gVars lVars irm.graph g base p) :
    ∃ n vm', addr gVars lVars irm.graph g base q = vm.ip + n ∧ RunsThrough s n vm vm' ∧
      vm'.stackTop = vm.stackTop + (if keepsValue c e then typeBytes t else 0) + typeBytes t := by
  obtain ⟨code, hcode, hat, hq⟩ := hl.instrsAt hp hin
  rw [← hip] at hat hq
  unfold storeInstrs at hcode
  have hstore : ∀ vm : Vmstate, (effect gVars lVars (.gstore i) vm).stackTop =
      vm.stackTop + typeBytes t := by
    intro vm
    simp only [effect, hslot, Option.elim_some]
    exact pushFrom_stackTop vm t _
  cases hkeeps : keepsValue c e with
  | false =>
    simp only [hkeeps, Bool.false_eq_true, if_false, List.nil_append] at hcode
    obtain ⟨c1, c2, h1, h2, rfl⟩ := instrsCode_cons.mp hcode
    obtain rfl := Except.ok.inj h2
    rw [List.append_nil] at hat hq
    exact ⟨_, _, hq, instr_runs rfl h1 hr hat, hstore vm⟩
  | true =>
    simp only [hkeeps, if_true, List.cons_append, List.nil_append] at hcode
    obtain ⟨c3, c24, h3, h24, rfl⟩ := instrsCode_cons.mp hcode
    obtain ⟨c2, c4, h2, h4, rfl⟩ := instrsCode_cons.mp h24
    obtain rfl := Except.ok.inj h4
    rw [List.append_nil] at hat hq
    have hrun := instr_runs rfl h3 hr (codeAt_append.mp hat).1
    refine ⟨_, _, hq, hrun.instr rfl h2 (dup_ready hr ht hroom _) hat, ?_⟩
    have hdup : (effect gVars lVars (.dup t) vm).stackTop = vm.stackTop + typeBytes t :=
      dup_stackTop vm ht
    show (effect gVars lVars (.gstore i) _).stackTop = _
    rw [hstore]
    show (effect gVars lVars (.dup t) vm).stackTop + _ = _
    rw [hdup, if_pos rfl]

/-- **No write to a global stores its value**: wherever a write stands in a compiled method, and
    whatever value it is to store, the machine does not store it; it leaves it on the stack. -/
theorem global_write_never_stores (hl : Loaded m irm gVars lVars g s base)
    (hslot : gVars.lookup i = some (slot, t)) (ht : t ≠ .void) (he : WritesGlobal t i e)
    (c : ExpressionContext) (hp : irm.graph.Reachable p.1) (hin : codeIn irm.graph c e p q) :
    ∃ r, computeIn irm.graph c e p r ∧ InstrsAt irm.graph (storeInstrs c t i e) r q ∧
      ∀ (vm : Vmstate) (v : Val), (valBytes v).length = typeBytes t → vm.Ready →
        vm.stackTop + typeBytes t ≤ vm.stack + (STACK_SIZE - 2) →
        vm.ip = addr gVars lVars irm.graph g base r →
        ¬ ∃ n vm', addr gVars lVars irm.graph g base q = vm.ip + n ∧ RunsThrough s n vm vm' ∧
          Stores (vm.globalAddr (slotByte slot)) v (keepsValue c e) vm vm' := by
  obtain ⟨r, hr, hq⟩ := codeIn_writesGlobal he c hin
  refine ⟨r, hr, hq, fun vm v hv hready hroom hip => ?_⟩
  rintro ⟨n, vm', hn, hrun, hstores⟩
  obtain ⟨n', vm'', hn', hrun', htop⟩ :=
    storeInstrs_run hl hslot ht (reachable_of_computeIn hp hr) hq hready hroom hip
  obtain rfl : n = n' := by omega
  obtain rfl := hrun.unique hrun'
  have hpos := typeBytes_pos ht
  have htop' := hstores.top
  rw [hv] at htop'
  split at htop <;> split at htop' <;> omega

/-! ## An assignment -/

/-- `byte g; void main() { g = 5; }` -/
def assignFive : TMethod :=
  ⟨0, .void, [], [], [],
    [.expressionStatement (.typeConversion .void (.globalStore .byte 0 (.byteLiteral 5)))]⟩

/-- Its code. -/
def assignFiveCode : Storage := fun a => [24, 5, 21, 0, 85][a]?

theorem assignFive_loaded :
    ∃ irm g, Loaded assignFive irm [(0, 0, .byte)] [] g assignFiveCode 0 ∧
      codeIn irm.graph .void (.globalStore .byte 0 (.byteLiteral 5)) (0, 0) (0, 2) := by
  have hcompile : ∃ irm g code bytes, buildIRMethod assignFive = .ok irm ∧
      nmapM (outputBlock [(0, 0, .byte)] []) irm.graph = .ok g ∧ scheduleBlocks g = .ok code ∧
      code.mapM bytecodeByte = .ok bytes ∧ bytes = [24, 5, 21, 0, 85] ∧
      irm.graph.node 0 = some ⟨[.bconst 5, .gstore 0, .return .void], []⟩ :=
    ⟨_, _, _, _, rfl, rfl, rfl, rfl, rfl, rfl⟩
  obtain ⟨irm, g, code, bytes, hm, hg, hcode, hbytes, rfl, hnode⟩ := hcompile
  refine ⟨irm, g, ⟨hm, hg, code, _, hcode, hbytes, by decide, fun i b h => ?_⟩, ?_⟩
  · show [24, 5, 21, 0, 85][0 + i]? = some b
    rwa [Nat.zero_add]
  · exact ⟨(0, 1), ⟨rfl, _, hnode, [.gstore 0, .return .void], rfl⟩, rfl, _, hnode, [.return .void], rfl⟩

theorem global_write_never_stores_five :
    ∃ irm g, Loaded assignFive irm [(0, 0, .byte)] [] g assignFiveCode 0 ∧
      ∃ r, computeIn irm.graph .void (.globalStore .byte 0 (.byteLiteral 5)) (0, 0) r ∧
        ∀ vm : Vmstate, vm.Ready → vm.stackTop + 1 ≤ vm.stack + (STACK_SIZE - 2) →
          vm.ip = addr [(0, 0, .byte)] [] irm.graph g 0 r →
          ¬ ∃ n vm', addr [(0, 0, .byte)] [] irm.graph g 0 (0, 2) = vm.ip + n ∧
            RunsThrough assignFiveCode n vm vm' ∧
            Stores (vm.globalAddr (slotByte 0)) (.byte 5) false vm vm' := by
  obtain ⟨irm, g, hl, hin⟩ := assignFive_loaded
  have hstart : irm.graph.Reachable ((0, 0) : Pos).1 := .refl
  obtain ⟨r, hr, -, hnever⟩ := global_write_never_stores hl rfl (by decide)
    (.assignment (.byteLiteral 5)) .void hstart hin
  exact ⟨irm, g, hl, r, hr, fun vm hready hroom hip => hnever vm (.byte 5) rfl hready hroom hip⟩

/-- A machine before its first instruction: one byte of globals, and a frame. -/
def freshMachine : Vmstate :=
  { fiveMachine with stackTop := 7, currentFrame := 1, mem := fun _ => 0 }

/-- After `g = 5` the global is 0 as before, and two bytes lie on the stack. -/
theorem assignment_leaves_global :
    ∃ irm g, Loaded assignFive irm [(0, 0, .byte)] [] g assignFiveCode 0 ∧
      codeIn irm.graph .void (.globalStore .byte 0 (.byteLiteral 5)) (0, 0) (0, 2) ∧
      ∃ vm', RunsThrough assignFiveCode 4 freshMachine vm' ∧
        vm'.stackTop = freshMachine.stackTop + 2 ∧
        vm'.mem (freshMachine.globalAddr (slotByte 0)) = 0 := by
  obtain ⟨irm, g, hl, hin⟩ := assignFive_loaded
  have hat : CodeAt assignFiveCode 0 [.bconst, .immediateByte 5, .gload .byte, .immediateByte 0] :=
    ⟨⟨_, rfl, rfl⟩, ⟨_, rfl, rfl⟩, ⟨_, rfl, rfl⟩, ⟨_, rfl, rfl⟩, trivial⟩
  have hready : freshMachine.Ready := ⟨rfl, by decide⟩
  have hconst : CodeAt assignFiveCode freshMachine.ip [.bconst, .immediateByte 5] :=
    ⟨⟨_, rfl, rfl⟩, ⟨_, rfl, rfl⟩, trivial⟩
  have hfirst : RunsThrough assignFiveCode [Bytecode.bconst, .immediateByte 5].length freshMachine
      ((effect [(0, 0, .byte)] [] (.bconst 5) freshMachine).advance 2) :=
    instr_runs rfl rfl hready hconst
  have hready' : ((effect [(0, 0, .byte)] [] (.bconst 5) freshMachine).advance 2).Ready :=
    ⟨rfl, by decide⟩
  have hcode : instrCode [(0, 0, .byte)] [] (.gstore 0) = .ok [.gload .byte, .immediateByte 0] := rfl
  exact ⟨irm, g, hl, hin, _, hfirst.instr rfl hcode hready' hat, rfl, rfl⟩

end KeyboardFirmware.Vm
