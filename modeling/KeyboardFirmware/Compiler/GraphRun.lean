/-
  Running a graph of basic blocks.

  What instructions do to a state and how a test comes out are parameters (`BlockMachine`), so that
  what is proved here holds of every machine the blocks may run on.  `exprSem` is what the code of an
  expression does, read off the expression alone; wherever that code stands in a graph, the graph runs
  it (`exprIn_runs`).
-/
import KeyboardFirmware.Compiler.MethodGraph
import KeyboardFirmware.Lib.Simulation

namespace KeyboardFirmware.Compiler

open Lib
open Vm (CondOp)

/-- What the instructions of a block do to a state, and the test at its end. -/
structure BlockMachine (σ : Type) where
  exec : IRInstruction → σ → σ
  test : CondOp → σ → Bool × σ

variable {σ : Type} (M : BlockMachine σ)

/-- Instructions, one after the other. -/
def BlockMachine.execAll (is : List IRInstruction) (s : σ) : σ := is.foldl (fun s i => M.exec i s) s

/-- From the end of a block along its edges. -/
def jumpFrom : List (IREdge × Nat) → σ → Option (Pos × σ)
  | [(.default, d)], s => some ((d, 0), s)
  | [(.conditional c, i), (.default, d)], s =>
    let (b, s) := M.test c s
    some ((if b then i else d, 0), s)
  | _, _ => none

/-- One step: an instruction, or the end of a block. -/
def graphStep (G : IRGraph IRInstruction) : Pos × σ → Option (Pos × σ)
  | ((n, i), s) =>
    match G.node n with
    | none => none
    | some b =>
      match b.instrs[i]? with
      | some instr => some ((n, i + 1), M.exec instr s)
      | none => jumpFrom M b.edges s

/-- A run of the graph. -/
abbrev GraphSteps (G : IRGraph IRInstruction) : Nat → Pos × σ → Pos × σ → Prop :=
  Steps (graphStep M G) fun _ => True

theorem jumpFrom_some {M : BlockMachine σ} {es : List (IREdge × Nat)} {s : σ} {x : Pos × σ}
    (h : jumpFrom M es s = some x) : ∃ e ∈ es, e.2 = x.1.1 := by
  unfold jumpFrom at h
  split at h
  · obtain rfl := Option.some.inj h
    exact ⟨_, List.mem_singleton.mpr rfl, rfl⟩
  · next c i d =>
    obtain rfl := Option.some.inj h
    cases (M.test c s).1 with
    | true => exact ⟨(.conditional c, i), by simp, rfl⟩
    | false => exact ⟨(.default, d), by simp, rfl⟩
  · exact (nomatch h)

/-- A run stays among the nodes that the entry leads to. -/
theorem graphSteps_reachable {M : BlockMachine σ} {G : IRGraph IRInstruction} {n : Nat}
    {x y : Pos × σ} (hrun : GraphSteps M G n x y) (hx : G.Reachable x.1.1) : G.Reachable y.1.1 := by
  induction hrun with
  | refl => exact hx
  | @head n x y z _ hstep _ ih =>
    obtain ⟨⟨k, i⟩, s⟩ := x
    refine ih ?_
    cases hb : G.node k with
    | none =>
      simp only [graphStep, hb] at hstep
      exact (nomatch hstep)
    | some b =>
      cases hi : b.instrs[i]? with
      | some instr =>
        simp only [graphStep, hb, hi] at hstep
        obtain rfl := Option.some.inj hstep
        exact hx
      | none =>
        simp only [graphStep, hb, hi] at hstep
        obtain ⟨e, he, htarget⟩ := jumpFrom_some hstep
        exact htarget ▸ hx.edge hb he

/-! ## What the code of an expression does -/

/-- The effects of an expression as a value, for nothing, and as a condition. -/
structure ExprSem (σ : Type) where
  value : σ → σ
  void : σ → σ
  cond : σ → Bool × σ

def ExprSem.ofValue (value void : σ → σ) : ExprSem σ := ⟨value, void, fun s => M.test .ifNe (value s)⟩

def ExprSem.ofCond (cond : σ → Bool × σ) (void : σ → σ) : ExprSem σ :=
  ⟨fun s => let (b, s) := cond s; M.exec (.bconst (if b then 1 else 0)) s, void, cond⟩

def booleanCastSem : Typ → σ → σ
  | .short => M.exec (.arith .byte .or)
  | _ => id

def discardSem : Typ → σ → σ
  | .void => id
  | t => M.exec (.pop t)

def operandSem (t : Typ) (zero otherZero : Bool) (value : σ → σ) : σ → σ :=
  if zero then id else if otherZero then booleanCastSem M t ∘ value else value

def condComparisonSem (t tr : Typ) (op : BinaryOp) (zLhs zRhs : Bool) (lhs rhs : σ → σ) (s : σ) :
    Bool × σ :=
  let s := operandSem M tr zRhs zLhs rhs (operandSem M t zLhs zRhs lhs s)
  M.test (Vm.conditionFor (if zLhs then flipOp op else op))
    (if zLhs || zRhs then s else M.exec (.arith t .cmp) s)

def condDisjSem (lhs rhs : σ → Bool × σ) (s : σ) : Bool × σ :=
  let (b, s) := lhs s
  if b then (true, s) else rhs s

def condConjSem (lhs rhs : σ → Bool × σ) (s : σ) : Bool × σ :=
  let (b, s) := lhs s
  if b then rhs s else (false, s)

def stepSem (load store step : IRInstruction) (t : Typ) (before after : List IRInstruction) : σ → σ :=
  M.execAll ([load] ++ before ++ [irConst t 1, step] ++ after ++ [store])

def prefixStepSem (op : PrefixOp) : TExpression → Option (ExprSem σ)
  | .globalLoad t i => some <| .ofValue M
      (stepSem M (.gload i) (.gstore i) (mkPrefixInstr t op) t [] [.dup t])
      (stepSem M (.gload i) (.gstore i) (mkPrefixInstr t op) t [] [])
  | .localLoad t i => some <| .ofValue M
      (stepSem M (.load i) (.store i) (mkPrefixInstr t op) t [] [.dup t])
      (stepSem M (.load i) (.store i) (mkPrefixInstr t op) t [] [])
  | _ => none

def postfixStepSem (op : PostfixOp) : TExpression → ExprSem σ
  | .globalLoad t i => .ofValue M
      (stepSem M (.gload i) (.gstore i) (mkPostfixInstr t op) t [.dup t] [])
      (stepSem M (.gload i) (.gstore i) (mkPostfixInstr t op) t [] [])
  | .localLoad t i => .ofValue M
      (stepSem M (.load i) (.store i) (mkPostfixInstr t op) t [.dup t] [])
      (stepSem M (.load i) (.store i) (mkPostfixInstr t op) t [] [])
  | _ => .ofValue M id id

mutual

/-- The effects of an expression. -/
def exprSem : TExpression → ExprSem σ
  | .globalStore t i e => .ofValue M
      (fun s => M.execAll [.dup t, .gstore i] ((exprSem e).value s))
      (fun s => M.exec (.gstore i) ((exprSem e).value s))
  | .localStore t i e => .ofValue M
      (fun s => M.execAll [.dup t, .store i] ((exprSem e).value s))
      (fun s => M.exec (.store i) ((exprSem e).value s))
  | .globalLoad _ i => .ofValue M (M.exec (.gload i)) id
  | .localLoad _ i => .ofValue M (M.exec (.load i)) id
  | .prefixExpression _ .not e =>
    .ofCond M (fun s => let (b, s) := (exprSem e).cond s; (!b, s)) fun s => ((exprSem e).cond s).2
  | .prefixExpression t .complement e => .ofValue M
      (fun s => M.exec (.arith t .complement) ((exprSem e).value s)) (exprSem e).void
  | .prefixExpression t .minus e => .ofValue M
      (fun s => M.exec (.arith t .subtract) ((exprSem e).value (M.exec (irConst t 0) s)))
      (exprSem e).void
  | .prefixExpression _ op e => (prefixStepSem M op e).getD (.ofValue M id (exprSem e).void)
  | .postfixExpression _ e op => postfixStepSem M op e
  | .binaryExpression _ lhs .conj rhs =>
    .ofCond M (condConjSem (exprSem lhs).cond (exprSem rhs).cond)
      fun s => (condConjSem (exprSem lhs).cond (exprSem rhs).cond s).2
  | .binaryExpression _ lhs .disj rhs =>
    .ofCond M (condDisjSem (exprSem lhs).cond (exprSem rhs).cond)
      fun s => (condDisjSem (exprSem lhs).cond (exprSem rhs).cond s).2
  | .binaryExpression t lhs op rhs =>
    match opFor op with
    | some aop => .ofValue M
        (fun s => M.exec (.arith t aop) ((exprSem rhs).value ((exprSem lhs).value s)))
        (fun s => (exprSem rhs).void ((exprSem lhs).void s))
    | none => .ofCond M
        (condComparisonSem M (typeOf lhs) (typeOf rhs) op (isZero lhs) (isZero rhs)
          (exprSem lhs).value (exprSem rhs).value)
        (fun s => (exprSem rhs).void ((exprSem lhs).void s))
  | .shortLiteral val => ⟨M.exec (.sconst val), id, fun s => (decide (val ≠ 0), s)⟩
  | .byteLiteral val => ⟨M.exec (.bconst val), id, fun s => (decide (val ≠ 0), s)⟩
  | .methodCall t i args => .ofValue M (fun s => M.exec (.call i) (argsSem args s))
      (fun s => discardSem M t (M.exec (.call i) (argsSem args s)))
  | .syscall t op args => .ofValue M (fun s => M.exec (.syscall op) (argsSem args s))
      (fun s => discardSem M t (M.exec (.syscall op) (argsSem args s)))
  | .typeConversion .void e => .ofValue M (exprSem e).void (exprSem e).void
  | .typeConversion .short e => .ofValue M
      (fun s => M.exec .b2s ((exprSem e).value s)) (exprSem e).void
  | .typeConversion .byte e => .ofValue M
      (fun s => M.exec .s2b ((exprSem e).value s)) (exprSem e).void
  | .booleanConversion e => .ofValue M
      (fun s => booleanCastSem M (typeOf e) ((exprSem e).value s)) (exprSem e).void

def argsSem : List TExpression → σ → σ
  | [], s => s
  | e :: es, s => argsSem es ((exprSem e).value s)

end

/-! ## The graph runs it -/

section Runs

variable {M} {G : IRGraph IRInstruction}

/-- Code that does `f` and comes out where `R` says. -/
def RunsTo (M : BlockMachine σ) (G : IRGraph IRInstruction) (R : PosRel) (f : σ → σ) : Prop :=
  ∀ ⦃p q⦄, R p q → ∀ s, ∃ n, GraphSteps M G n (p, s) (q, f s)

/-- Code that branches as `f` says. -/
def BranchesTo (M : BlockMachine σ) (G : IRGraph IRInstruction) (R : CondRel) (f : σ → Bool × σ) :
    Prop :=
  ∀ ⦃p ifId elseId⦄, R p ifId elseId → ∀ s, ∃ n, 0 < n ∧
    GraphSteps M G n (p, s) ((if (f s).1 then ifId else elseId, 0), (f s).2)

theorem graphStep_instr {p : Pos} {b : IRNode IRInstruction} {i : IRInstruction}
    (hb : G.node p.1 = some b) (hi : b.instrs[p.2]? = some i) (s : σ) :
    graphStep M G (p, s) = some ((p.1, p.2 + 1), M.exec i s) := by
  obtain ⟨n, j⟩ := p
  simp only [graphStep, hb, hi]

theorem graphStep_end {p : Pos} {es : List (IREdge × Nat)} (h : EndsAt G p es) (s : σ) :
    graphStep M G (p, s) = jumpFrom M es s := by
  obtain ⟨n, j⟩ := p
  obtain ⟨b, hb, hlen, rfl⟩ := h
  have hnone : b.instrs[j]? = none := List.getElem?_eq_none (Nat.le_of_eq hlen)
  simp only [graphStep, hb, hnone]

theorem instrsAt_runs (is : List IRInstruction) : RunsTo M G (InstrsAt G is) (M.execAll is) := by
  induction is with
  | nil =>
    rintro p q ⟨rfl, -⟩ s
    exact ⟨0, .refl _⟩
  | cons i is ih =>
    rintro ⟨n, j⟩ q ⟨rfl, b, hb, hpre⟩ s
    obtain ⟨t, ht⟩ := hpre
    have hi : b.instrs[j]? = some i := by
      have hhead : (b.instrs.drop j)[0]? = some i := by rw [← ht]; rfl
      rwa [List.getElem?_drop, Nat.add_zero] at hhead
    have hrest : InstrsAt G is (n, j + 1) (n, j + (i :: is).length) := by
      refine ⟨?_, b, hb, t, ?_⟩
      · rw [List.length_cons, Nat.add_assoc, Nat.add_comm 1]
      · show is ++ t = b.instrs.drop (j + 1)
        rw [← List.tail_drop, ← ht]
        rfl
    obtain ⟨k, hk⟩ := ih hrest (M.exec i s)
    exact ⟨k + 1, .head trivial (graphStep_instr hb hi s) hk⟩

theorem instrAt_runs (i : IRInstruction) : RunsTo M G (InstrsAt G [i]) (M.exec i) := instrsAt_runs [i]

theorem stay_runs : RunsTo M G stay id := by
  rintro p q rfl s
  exact ⟨0, .refl _⟩

theorem RunsTo.andThen {R S : PosRel} {f g : σ → σ} (hf : RunsTo M G R f) (hg : RunsTo M G S g) :
    RunsTo M G (andThen R S) fun s => g (f s) := by
  rintro p q ⟨r, hR, hS⟩ s
  obtain ⟨m, hm⟩ := hf hR s
  obtain ⟨n, hn⟩ := hg hS (f s)
  exact ⟨m + n, hm.trans hn⟩

/-- Code and then a default edge. -/
theorem RunsTo.thenDefault {R : PosRel} {f : σ → σ} (hf : RunsTo M G R f) {p r : Pos} {d : Nat}
    (hR : R p r) (hends : EndsAt G r [(.default, d)]) (s : σ) :
    ∃ n, 0 < n ∧ GraphSteps M G n (p, s) ((d, 0), f s) := by
  obtain ⟨n, hn⟩ := hf hR s
  exact ⟨n + 1, Nat.succ_pos n, hn.trans (.one trivial (graphStep_end hends (f s)))⟩

/-- Code and then a test. -/
theorem RunsTo.thenTest {R : PosRel} {f : σ → σ} (hf : RunsTo M G R f) {p r : Pos} {c : CondOp}
    {i d : Nat} (hR : R p r) (hends : EndsAt G r [(.conditional c, i), (.default, d)]) (s : σ) :
    ∃ n, 0 < n ∧ GraphSteps M G n (p, s)
      ((if (M.test c (f s)).1 then i else d, 0), (M.test c (f s)).2) := by
  obtain ⟨n, hn⟩ := hf hR s
  exact ⟨n + 1, Nat.succ_pos n, hn.trans (.one trivial (graphStep_end hends (f s)))⟩

theorem booleanCastIn_runs (t : Typ) : RunsTo M G (booleanCastIn G t) (booleanCastSem M t) := by
  cases t with
  | byte => exact stay_runs
  | short => exact instrAt_runs _
  | void => exact fun p q h => h.elim

theorem discardIn_runs (t : Typ) : RunsTo M G (discardIn G t) (discardSem M t) := by
  cases t with
  | void => exact stay_runs
  | byte => exact instrAt_runs _
  | short => exact instrAt_runs _

theorem operandIn_runs (t : Typ) (zero otherZero : Bool) {V : PosRel} {f : σ → σ}
    (h : RunsTo M G V f) :
    RunsTo M G (operandIn G t zero otherZero V) (operandSem M t zero otherZero f) := by
  cases zero with
  | true => exact stay_runs
  | false =>
    cases otherZero with
    | true => exact h.andThen (booleanCastIn_runs t)
    | false => exact h

/-- The three codes of an expression do what they should. -/
structure ExprRuns (M : BlockMachine σ) (G : IRGraph IRInstruction) (I : ExprIn) (E : ExprSem σ) :
    Prop where
  value : RunsTo M G I.value E.value
  void : RunsTo M G I.void E.void
  cond : BranchesTo M G I.cond E.cond

section Combinators

variable {V W : PosRel} {f g : σ → σ} {C D : CondRel} {c d : σ → Bool × σ}

theorem ExprRuns.ofValue (hv : RunsTo M G V f) (hw : RunsTo M G W g) :
    ExprRuns M G (.ofValue G V W) (.ofValue M f g) where
  value := hv
  void := hw
  cond := by
    rintro p ifId elseId ⟨r, hV, hends⟩ s
    exact hv.thenTest hV hends s

theorem booleanValueIn_runs (hc : BranchesTo M G C c) :
    RunsTo M G (booleanValueIn G C) fun s => M.exec (.bconst (if (c s).1 then 1 else 0)) (c s).2 := by
  rintro p q ⟨thenId, elseId, afterId, hC, ⟨r, hthen, hends⟩, ⟨r', helse, hends'⟩, rfl⟩ s
  obtain ⟨n, -, hn⟩ := hc hC s
  obtain ⟨b, s', hcs⟩ : ∃ b s', c s = (b, s') := ⟨_, _, rfl⟩
  simp only [hcs] at hn ⊢
  cases b with
  | true =>
    obtain ⟨m, -, hm⟩ := (instrAt_runs _).thenDefault hthen hends s'
    exact ⟨n + m, hn.trans hm⟩
  | false =>
    obtain ⟨m, -, hm⟩ := (instrAt_runs _).thenDefault helse hends' s'
    exact ⟨n + m, hn.trans hm⟩

theorem voidIn_runs (hc : BranchesTo M G C c) : RunsTo M G (voidIn C) fun s => (c s).2 := by
  rintro p q ⟨afterId, hC, rfl⟩ s
  obtain ⟨n, -, hn⟩ := hc hC s
  rw [ite_self] at hn
  exact ⟨n, hn⟩

theorem ExprRuns.ofCond (hc : BranchesTo M G C c) (hw : RunsTo M G W g) :
    ExprRuns M G (.ofCond G C W) (.ofCond M c g) := ⟨booleanValueIn_runs hc, hw, hc⟩

theorem condNotIn_runs (hc : BranchesTo M G C c) :
    BranchesTo M G (condNotIn C) fun s => (!(c s).1, (c s).2) := by
  intro p ifId elseId hC s
  obtain ⟨n, hpos, hn⟩ := hc hC s
  refine ⟨n, hpos, ?_⟩
  obtain ⟨b, s', hcs⟩ : ∃ b s', c s = (b, s') := ⟨_, _, rfl⟩
  simp only [hcs] at hn ⊢
  cases b <;> exact hn

theorem condDisjIn_runs (hc : BranchesTo M G C c) (hd : BranchesTo M G D d) :
    BranchesTo M G (condDisjIn C D) (condDisjSem c d) := by
  rintro p ifId elseId ⟨rhsId, hC, hD⟩ s
  obtain ⟨n, hpos, hn⟩ := hc hC s
  obtain ⟨b, s', hcs⟩ : ∃ b s', c s = (b, s') := ⟨_, _, rfl⟩
  simp only [condDisjSem, hcs] at hn ⊢
  cases b with
  | true => exact ⟨n, hpos, hn⟩
  | false =>
    obtain ⟨m, -, hm⟩ := hd hD s'
    exact ⟨n + m, Nat.add_pos_left hpos m, hn.trans hm⟩

theorem condConjIn_runs (hc : BranchesTo M G C c) (hd : BranchesTo M G D d) :
    BranchesTo M G (condConjIn C D) (condConjSem c d) := by
  rintro p ifId elseId ⟨rhsId, hC, hD⟩ s
  obtain ⟨n, hpos, hn⟩ := hc hC s
  obtain ⟨b, s', hcs⟩ : ∃ b s', c s = (b, s') := ⟨_, _, rfl⟩
  simp only [condConjSem, hcs] at hn ⊢
  cases b with
  | true =>
    obtain ⟨m, -, hm⟩ := hd hD s'
    exact ⟨n + m, Nat.add_pos_left hpos m, hn.trans hm⟩
  | false => exact ⟨n, hpos, hn⟩

theorem condConstantIn_runs (b : Bool) :
    BranchesTo M G (condConstantIn G b) fun s => (b, s) := by
  intro p ifId elseId hends s
  refine ⟨1, Nat.one_pos, .one trivial ?_⟩
  rw [graphStep_end hends]
  rfl

theorem condComparisonIn_runs (t tr : Typ) (op : BinaryOp) (zLhs zRhs : Bool)
    (hv : RunsTo M G V f) (hw : RunsTo M G W g) :
    BranchesTo M G (condComparisonIn G t tr op zLhs zRhs V W)
      (condComparisonSem M t tr op zLhs zRhs f g) := by
  rintro p ifId elseId ⟨-, r, hcode, hends⟩ s
  have hoperands := (operandIn_runs t zLhs zRhs hv).andThen (operandIn_runs tr zRhs zLhs hw)
  rw [condComparisonSem]
  cases hz : zLhs || zRhs with
  | true =>
    rw [hz] at hcode
    exact (hoperands.andThen stay_runs).thenTest hcode hends s
  | false =>
    rw [hz] at hcode
    exact (hoperands.andThen (instrAt_runs _)).thenTest hcode hends s

end Combinators

theorem prefixStepIn_runs (op : PrefixOp) (e : TExpression) {W : PosRel} {g : σ → σ}
    (hw : RunsTo M G W g) :
    ExprRuns M G ((prefixStepIn G op e).getD (.ofValue G (fun _ _ => False) W))
      ((prefixStepSem M op e).getD (.ofValue M id g)) := by
  cases e
  case globalLoad => exact .ofValue (instrsAt_runs _) (instrsAt_runs _)
  case localLoad => exact .ofValue (instrsAt_runs _) (instrsAt_runs _)
  all_goals exact .ofValue (fun _ _ h => h.elim) hw

theorem postfixStepIn_runs (op : PostfixOp) (e : TExpression) :
    ExprRuns M G (postfixStepIn G op e) (postfixStepSem M op e) := by
  cases e
  case globalLoad => exact .ofValue (instrsAt_runs _) (instrsAt_runs _)
  case localLoad => exact .ofValue (instrsAt_runs _) (instrsAt_runs _)
  all_goals exact .ofValue (fun _ _ h => h.elim) (fun _ _ h => h.elim)

theorem literalIn_runs (i : IRInstruction) (b : Bool) :
    ExprRuns M G ⟨InstrsAt G [i], stay, condConstantIn G b⟩ ⟨M.exec i, id, fun s => (b, s)⟩ :=
  ⟨instrAt_runs i, stay_runs, condConstantIn_runs b⟩

mutual

/-- **Expressions**: wherever the codes of an expression stand, they do what the expression does. -/
theorem exprIn_runs (M : BlockMachine σ) (G : IRGraph IRInstruction) :
    ∀ e, ExprRuns M G (exprIn G e) (exprSem M e)
  | .globalStore t i e =>
    have h := (exprIn_runs M G e).value
    .ofValue (h.andThen (instrsAt_runs _)) (h.andThen (instrAt_runs _))
  | .localStore t i e =>
    have h := (exprIn_runs M G e).value
    .ofValue (h.andThen (instrsAt_runs _)) (h.andThen (instrAt_runs _))
  | .globalLoad _ i => .ofValue (instrAt_runs _) stay_runs
  | .localLoad _ i => .ofValue (instrAt_runs _) stay_runs
  | .prefixExpression _ .not e =>
    have h := condNotIn_runs (exprIn_runs M G e).cond
    have hvoid := voidIn_runs h
    .ofCond h hvoid
  | .prefixExpression t .complement e =>
    have h := exprIn_runs M G e
    .ofValue (h.value.andThen (instrAt_runs _)) h.void
  | .prefixExpression t .minus e =>
    have h := exprIn_runs M G e
    .ofValue ((instrAt_runs _).andThen (h.value.andThen (instrAt_runs _))) h.void
  | .prefixExpression _ .predecrement e => prefixStepIn_runs _ e (exprIn_runs M G e).void
  | .prefixExpression _ .preincrement e => prefixStepIn_runs _ e (exprIn_runs M G e).void
  | .postfixExpression _ e op => postfixStepIn_runs op e
  | .binaryExpression t lhs op rhs => by
    have hl := exprIn_runs M G lhs
    have hr := exprIn_runs M G rhs
    have hvoid := hl.void.andThen hr.void
    have hcmp := condComparisonIn_runs (typeOf lhs) (typeOf rhs) op (isZero lhs) (isZero rhs)
      hl.value hr.value
    cases op
    case conj =>
      have h := condConjIn_runs hl.cond hr.cond
      exact .ofCond h (voidIn_runs h)
    case disj =>
      have h := condDisjIn_runs hl.cond hr.cond
      exact .ofCond h (voidIn_runs h)
    case gt | ge | lt | le | eq | ne => exact .ofCond hcmp hvoid
    all_goals exact .ofValue (hl.value.andThen (hr.value.andThen (instrAt_runs _))) hvoid
  | .shortLiteral val => literalIn_runs _ _
  | .byteLiteral val => literalIn_runs _ _
  | .methodCall t i args =>
    have h := (argsIn_runs M G args).andThen (instrAt_runs (.call i))
    .ofValue h (h.andThen (discardIn_runs t))
  | .syscall t op args =>
    have h := (argsIn_runs M G args).andThen (instrAt_runs (.syscall op))
    .ofValue h (h.andThen (discardIn_runs t))
  | .typeConversion .void e =>
    have h := exprIn_runs M G e
    .ofValue h.void h.void
  | .typeConversion .short e =>
    have h := exprIn_runs M G e
    .ofValue (fun _ _ hin => h.value.andThen (instrAt_runs _) hin.2) h.void
  | .typeConversion .byte e =>
    have h := exprIn_runs M G e
    .ofValue (fun _ _ hin => h.value.andThen (instrAt_runs _) hin.2) h.void
  | .booleanConversion e =>
    have h := exprIn_runs M G e
    .ofValue (h.value.andThen (booleanCastIn_runs _)) h.void

theorem argsIn_runs (M : BlockMachine σ) (G : IRGraph IRInstruction) :
    ∀ es, RunsTo M G (argsIn G es) (argsSem M es)
  | [] => stay_runs
  | e :: es => (exprIn_runs M G e).value.andThen (argsIn_runs M G es)

end

/-- The code of an expression that can be reached can be run through. -/
theorem exprIn_reachable {e : TExpression} {p q : Pos} (h : (exprIn G e).value p q)
    (hp : G.Reachable p.1) : G.Reachable q.1 := by
  have hruns := exprIn_runs (⟨fun _ s => s, fun _ s => (true, s)⟩ : BlockMachine Unit) G e
  obtain ⟨n, hn⟩ := hruns.value h ()
  exact graphSteps_reachable hn hp

end Runs

end KeyboardFirmware.Compiler
