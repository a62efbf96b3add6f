/-
  Where the code of an expression or a statement stands in a graph.

  A position is a node and a count of instructions of its block.  `exprIn G e` and `stmtIn G s` say,
  clause by clause as the builder goes, that the graph `G` has the code of `e` or `s` from one
  position to another; nothing in them runs the builder.  The builder makes it so
  (`buildIRStatements_in`), and what the code does is proved from it alone.
-/
import KeyboardFirmware.Compiler.Builder

namespace KeyboardFirmware.Compiler

/-- A place in a graph. -/
abbrev Pos := Nat × Nat

abbrev PosRel := Pos → Pos → Prop
abbrev CondRel := Pos → Nat → Nat → Prop

/-- The instructions `is` stand from `p` to `q`. -/
def InstrsAt (G : IRGraph IRInstruction) (is : List IRInstruction) : PosRel := fun p q =>
  q = (p.1, p.2 + is.length) ∧ ∃ b, G.node p.1 = some b ∧ is <+: b.instrs.drop p.2

/-- A block ends at `p`, with the edges `es`. -/
def EndsAt (G : IRGraph IRInstruction) (p : Pos) (es : List (IREdge × Nat)) : Prop :=
  ∃ b, G.node p.1 = some b ∧ b.instrs.length = p.2 ∧ b.edges = es

/-- One piece of code after another. -/
def andThen (R S : PosRel) : PosRel := fun p q => ∃ r, R p r ∧ S r q

/-- No code. -/
def stay : PosRel := fun p q => q = p

/-- Where the three codes of an expression stand. -/
structure ExprIn where
  value : PosRel
  void : PosRel
  cond : CondRel

section

variable (G : IRGraph IRInstruction)

def booleanCastIn : Typ → PosRel
  | .byte => stay
  | .short => InstrsAt G [.arith .byte .or]
  | .void => fun _ _ => False

def discardIn : Typ → PosRel
  | .void => stay
  | t => InstrsAt G [.pop t]

/-- The block at `n` is an instruction and an edge to `m`. -/
def constantBlock (n : Nat) (v : VByte) (m : Nat) : Prop :=
  ∃ r, InstrsAt G [.bconst v] (n, 0) r ∧ EndsAt G r [(.default, m)]

def booleanValueIn (cond : CondRel) : PosRel := fun p q =>
  ∃ thenId elseId afterId, cond p thenId elseId ∧ constantBlock G thenId 1 afterId ∧
    constantBlock G elseId 0 afterId ∧ q = (afterId, 0)

def voidIn (cond : CondRel) : PosRel := fun p q => ∃ afterId, cond p afterId afterId ∧ q = (afterId, 0)

def condOfValueIn (value : PosRel) : CondRel := fun p ifId elseId =>
  ∃ r, value p r ∧ EndsAt G r [(.conditional .ifNe, ifId), (.default, elseId)]

def condNotIn (cond : CondRel) : CondRel := fun p ifId elseId => cond p elseId ifId

def condDisjIn (lhs rhs : CondRel) : CondRel := fun p ifId elseId =>
  ∃ rhsId, lhs p ifId rhsId ∧ rhs (rhsId, 0) ifId elseId

def condConjIn (lhs rhs : CondRel) : CondRel := fun p ifId elseId =>
  ∃ rhsId, lhs p rhsId elseId ∧ rhs (rhsId, 0) ifId elseId

def condConstantIn (nonZero : Bool) : CondRel := fun p ifId elseId =>
  EndsAt G p [(.default, if nonZero then ifId else elseId)]

/-- The code of one operand of a comparison: none for a zero, one byte next to a zero. -/
def operandIn (t : Typ) (zero otherZero : Bool) (value : PosRel) : PosRel :=
  if zero then stay else if otherZero then andThen value (booleanCastIn G t) else value

def condComparisonIn (t tr : Typ) (op : BinaryOp) (zLhs zRhs : Bool) (lhs rhs : PosRel) : CondRel :=
  fun p ifId elseId =>
    (zLhs && zRhs) = false ∧
      ∃ r, andThen (andThen (operandIn G t zLhs zRhs lhs) (operandIn G tr zRhs zLhs rhs))
        (if zLhs || zRhs then stay else InstrsAt G [.arith t .cmp]) p r ∧
        EndsAt G r [(.conditional (Vm.conditionFor (if zLhs then flipOp op else op)), ifId),
          (.default, elseId)]

def ExprIn.ofValue (value void : PosRel) : ExprIn := ⟨value, void, condOfValueIn G value⟩

def ExprIn.ofCond (cond : CondRel) (void : PosRel) : ExprIn := ⟨booleanValueIn G cond, void, cond⟩

def stepIn (load store step : IRInstruction) (t : Typ) (before after : List IRInstruction) : PosRel :=
  InstrsAt G ([load] ++ before ++ [irConst t 1, step] ++ after ++ [store])

def prefixStepIn (op : PrefixOp) : TExpression → Option ExprIn
  | .globalLoad t i => some <| .ofValue G
      (stepIn G (.gload i) (.gstore i) (mkPrefixInstr t op) t [] [.dup t])
      (stepIn G (.gload i) (.gstore i) (mkPrefixInstr t op) t [] [])
  | .localLoad t i => some <| .ofValue G
      (stepIn G (.load i) (.store i) (mkPrefixInstr t op) t [] [.dup t])
      (stepIn G (.load i) (.store i) (mkPrefixInstr t op) t [] [])
  | _ => none

def postfixStepIn (op : PostfixOp) : TExpression → ExprIn
  | .globalLoad t i => .ofValue G
      (stepIn G (.gload i) (.gstore i) (mkPostfixInstr t op) t [.dup t] [])
      (stepIn G (.gload i) (.gstore i) (mkPostfixInstr t op) t [] [])
  | .localLoad t i => .ofValue G
      (stepIn G (.load i) (.store i) (mkPostfixInstr t op) t [.dup t] [])
      (stepIn G (.load i) (.store i) (mkPostfixInstr t op) t [] [])
  | _ => .ofValue G (fun _ _ => False) fun _ _ => False

mutual

/-- The codes of an expression in `G`. -/
def exprIn : TExpression → ExprIn
  | .globalStore t i e => .ofValue G
      (andThen (exprIn e).value (InstrsAt G [.dup t, .gstore i]))
      (andThen (exprIn e).value (InstrsAt G [.gstore i]))
  | .localStore t i e => .ofValue G
      (andThen (exprIn e).value (InstrsAt G [.dup t, .store i]))
      (andThen (exprIn e).value (InstrsAt G [.store i]))
  | .globalLoad _ i => .ofValue G (InstrsAt G [.gload i]) stay
  | .localLoad _ i => .ofValue G (InstrsAt G [.load i]) stay
  | .prefixExpression _ .not e =>
    .ofCond G (condNotIn (exprIn e).cond) (voidIn (condNotIn (exprIn e).cond))
  | .prefixExpression t .complement e => .ofValue G
      (andThen (exprIn e).value (InstrsAt G [.arith t .complement])) (exprIn e).void
  | .prefixExpression t .minus e => .ofValue G
      (andThen (InstrsAt G [irConst t 0])
        (andThen (exprIn e).value (InstrsAt G [.arith t .subtract])))
      (exprIn e).void
  | .prefixExpression _ op e =>
    (prefixStepIn G op e).getD (.ofValue G (fun _ _ => False) (exprIn e).void)
  | .postfixExpression _ e op => postfixStepIn G op e
  | .binaryExpression _ lhs .conj rhs =>
    .ofCond G (condConjIn (exprIn lhs).cond (exprIn rhs).cond)
      (voidIn (condConjIn (exprIn lhs).cond (exprIn rhs).cond))
  | .binaryExpression _ lhs .disj rhs =>
    .ofCond G (condDisjIn (exprIn lhs).cond (exprIn rhs).cond)
      (voidIn (condDisjIn (exprIn lhs).cond (exprIn rhs).cond))
  | .binaryExpression t lhs op rhs =>
    match opFor op with
    | some aop => .ofValue G
        (andThen (exprIn lhs).value (andThen (exprIn rhs).value (InstrsAt G [.arith t aop])))
        (andThen (exprIn lhs).void (exprIn rhs).void)
    | none =>
      .ofCond G (condComparisonIn G (typeOf lhs) (typeOf rhs) op (isZero lhs) (isZero rhs)
        (exprIn lhs).value (exprIn rhs).value) (andThen (exprIn lhs).void (exprIn rhs).void)
  | .shortLiteral val => ⟨InstrsAt G [.sconst val], stay, condConstantIn G (val ≠ 0)⟩
  | .byteLiteral val => ⟨InstrsAt G [.bconst val], stay, condConstantIn G (val ≠ 0)⟩
  | .methodCall t i args => .ofValue G
      (andThen (argsIn args) (InstrsAt G [.call i]))
      (andThen (andThen (argsIn args) (InstrsAt G [.call i])) (discardIn G t))
  | .syscall t op args => .ofValue G
      (andThen (argsIn args) (InstrsAt G [.syscall op]))
      (andThen (andThen (argsIn args) (InstrsAt G [.syscall op])) (discardIn G t))
  | .typeConversion .void e => .ofValue G (exprIn e).void (exprIn e).void
  | .typeConversion .short e => .ofValue G
      (fun p q => typeOf e = .byte ∧ andThen (exprIn e).value (InstrsAt G [.b2s]) p q)
      (exprIn e).void
  | .typeConversion .byte e => .ofValue G
      (fun p q => typeOf e = .short ∧ andThen (exprIn e).value (InstrsAt G [.s2b]) p q)
      (exprIn e).void
  | .booleanConversion e => .ofValue G
      (andThen (exprIn e).value (booleanCastIn G (typeOf e))) (exprIn e).void

def argsIn : List TExpression → PosRel
  | [] => stay
  | e :: es => andThen (exprIn e).value (argsIn es)

end

/-! ## Statements -/

/-- Where a loop's `continue` and `break` lead. -/
structure LoopEnv where
  continueBlockId : Option Nat
  breakBlockId : Option Nat

/-- A jump to a node, with dead code after it. -/
def jumpIn (target : Option Nat) : PosRel := fun p q =>
  (∃ k, target = some k ∧ EndsAt G p [(.default, k)]) ∧ q.2 = 0

/-- Code that leaves the method, with dead code after it. -/
def leaveIn (code : PosRel) : PosRel := fun p q => (∃ r, code p r ∧ EndsAt G r []) ∧ q.2 = 0

mutual

/-- The code of a statement in `G`. -/
def stmtIn : TStatement → LoopEnv → PosRel
  | .block _ stats, env => stmtsIn stats env
  | .ifStatement expr thenBody none, env => fun p q =>
    ∃ thenId followingId r, (exprIn G expr).cond p thenId followingId ∧
      stmtIn thenBody env (thenId, 0) r ∧ EndsAt G r [(.default, followingId)] ∧
      q = (followingId, 0)
  | .ifStatement expr thenBody (some elseBody), env => fun p q =>
    ∃ thenId followingId elseId r r', (exprIn G expr).cond p thenId elseId ∧
      stmtIn thenBody env (thenId, 0) r ∧ EndsAt G r [(.default, followingId)] ∧
      stmtIn elseBody env (elseId, 0) r' ∧ EndsAt G r' [(.default, followingId)] ∧
      q = (followingId, 0)
  | .whileStatement cond body, _ => fun p q =>
    ∃ condId bodyId followingId r, EndsAt G p [(.default, condId)] ∧
      (exprIn G cond).cond (condId, 0) bodyId followingId ∧
      stmtIn body ⟨some bodyId, some followingId⟩ (bodyId, 0) r ∧
      EndsAt G r [(.default, condId)] ∧ q = (followingId, 0)
  | .forStatement initializer cond iter body, _ => fun p q =>
    ∃ condId bodyId followingId r r' r'', (exprIn G initializer).void p r ∧
      EndsAt G r [(.default, condId)] ∧
      (exprIn G cond).cond (condId, 0) bodyId followingId ∧
      stmtIn body ⟨some bodyId, some followingId⟩ (bodyId, 0) r' ∧
      (exprIn G iter).void r' r'' ∧ EndsAt G r'' [(.default, condId)] ∧ q = (followingId, 0)
  | .breakStatement, env => jumpIn G env.breakBlockId
  | .continueStatement, env => jumpIn G env.continueBlockId
  | .exitStatement, _ => leaveIn G (InstrsAt G [.exit])
  | .returnStatement, _ => leaveIn G (InstrsAt G [.return .void])
  | .returnValueStatement expr, _ =>
    leaveIn G (andThen (exprIn G expr).value (InstrsAt G [.return (typeOf expr)]))
  | .expressionStatement expr, _ => (exprIn G expr).void
  | .empty, _ => stay

def stmtsIn : List TStatement → LoopEnv → PosRel
  | [], _ => stay
  | s :: ss, env => andThen (stmtIn s env) (stmtsIn ss env)

end

end

/-! ## Runs of the builder, with what they put into the final graph -/

/-- A run with a property of every final graph. -/
def Ran (st : BlockingState) (A : Nat → Prop) (st' : BlockingState) (O : Nat → Prop)
    (K : IRGraph IRInstruction → Prop) : Prop :=
  Builds st A st' O ∧ ∀ G, Final G st A st' O → K G

namespace Ran

variable {st st1 st2 : BlockingState} {A A1 O1 O2 : Nat → Prop}
  {K K1 K2 : IRGraph IRInstruction → Prop}

theorem refl (st : BlockingState) {acc : BlockAccum} (hopen : OpenAt st.blockGraph acc.id) :
    Ran st (fun n => n = acc.id) st (fun n => n = acc.id) fun _ => True :=
  ⟨Builds.refl st _ (by rintro n rfl; exact hopen), fun _ _ => trivial⟩

theorem trans (h1 : Ran st A st1 O1 K1) (h2 : Ran st1 A1 st2 O2 K2) (hsub : ∀ n, A1 n → O1 n) :
    Ran st A st2 (fun n => (O1 n ∧ ¬ A1 n) ∨ O2 n) fun G => K1 G ∧ K2 G :=
  ⟨h1.1.trans h2.1 hsub, fun G hG =>
    ⟨h1.2 G (hG.left h2.1 hsub), h2.2 G (hG.right h1.1 hsub)⟩⟩

theorem congr {O : Nat → Prop} (h : Ran st A st1 O1 K1) (hO : ∀ n, O1 n ↔ O n)
    (hK : ∀ G, K1 G → K G) : Ran st A st1 O K := by
  obtain rfl : O = O1 := funext fun n => propext (hO n).symm
  exact ⟨h.1, fun G hG => hK G (h.2 G hG)⟩

theorem opened {n : Nat} (h : Ran st A st1 O1 K1) (hn : O1 n) : OpenAt st1.blockGraph n :=
  (h.1.opened n hn).1

end Ran

/-- The position where an accumulator stands. -/
def BlockAccum.pos (acc : BlockAccum) : Pos := (acc.id, acc.revInstrs.length)

/-- The graph has the instructions of an accumulator at the start of its block. -/
def Holds (G : IRGraph IRInstruction) (acc : BlockAccum) : Prop :=
  ∃ b, G.node acc.id = some b ∧ acc.revInstrs.reverse <+: b.instrs

/-- The loop blocks are nodes of the graph. -/
def EnvOK (st : BlockingState) : Prop :=
  (∀ k, st.continueBlockId = some k → k < st.blockGraph.size) ∧
    ∀ k, st.breakBlockId = some k → k < st.blockGraph.size

/-- Where the loop blocks of a state are. -/
def BlockingState.env (st : BlockingState) : LoopEnv := ⟨st.continueBlockId, st.breakBlockId⟩

/-- Runs of the code `c` put code into the graph that stands as `P` says. -/
def CodeSpec (P : IRGraph IRInstruction → LoopEnv → PosRel) (c : Code) : Prop :=
  ∀ ⦃st acc acc' st'⦄, c acc st = .ok (acc', st') → EnvOK st → OpenAt st.blockGraph acc.id →
    Ran st (fun n => n = acc.id) st' (fun n => n = acc'.id) fun G =>
      Holds G acc' → Holds G acc ∧ P G st.env acc.pos acc'.pos

/-- The same for conditions. -/
def CondSpec (P : IRGraph IRInstruction → CondRel) (c : CondCode) : Prop :=
  ∀ ⦃ifId elseId st acc u st'⦄, c ifId elseId acc st = .ok (u, st') → EnvOK st →
    OpenAt st.blockGraph acc.id → ifId < st.blockGraph.size → elseId < st.blockGraph.size →
    Ran st (fun n => n = acc.id) st' (fun _ => False) fun G =>
      Holds G acc ∧ P G acc.pos ifId elseId

theorem EnvOK.builds {st st' : BlockingState} {A O : Nat → Prop} (h : EnvOK st)
    (hb : Builds st A st' O) : EnvOK st' := by
  refine ⟨fun k hk => ?_, fun k hk => ?_⟩
  · rw [hb.continueBlockId] at hk
    exact (h.1 k hk).trans_le hb.size_le
  · rw [hb.breakBlockId] at hk
    exact (h.2 k hk).trans_le hb.size_le

theorem Builds.env_eq {st st' : BlockingState} {A O : Nat → Prop} (hb : Builds st A st' O) :
    st'.env = st.env := by
  show LoopEnv.mk _ _ = LoopEnv.mk _ _
  rw [hb.continueBlockId, hb.breakBlockId]

theorem newBasicBlock_ran {st st' : BlockingState} {acc : BlockAccum}
    (h : newBasicBlock st = .ok (acc, st')) :
    acc = ⟨st.blockGraph.size, []⟩ ∧ st'.blockGraph.size = st.blockGraph.size + 1 ∧
      Ran st (fun _ => False) st' (fun n => n = acc.id) fun _ => True := by
  obtain ⟨rfl, hsize, hb⟩ := newBasicBlock_builds h
  exact ⟨rfl, hsize, hb, fun _ _ => trivial⟩

theorem commitBasicBlock_ran {st st' : BlockingState} {acc : BlockAccum}
    {es : List (IREdge × Nat)} {u : Unit} (h : commitBasicBlock es acc st = .ok (u, st'))
    (hopen : OpenAt st.blockGraph acc.id) (hshape : EdgeShape es)
    (htarget : ∀ e ∈ es, e.2 < st.blockGraph.size) :
    st'.blockGraph.size = st.blockGraph.size ∧
      Ran st (fun n => n = acc.id) st' (fun _ => False) fun G =>
        Holds G acc ∧ EndsAt G acc.pos es := by
  obtain ⟨hsize, hnode, hb⟩ := commitBasicBlock_builds hopen hshape htarget h
  refine ⟨hsize, hb, fun G hG => ?_⟩
  have hG' := hG acc.id (hsize ▸ hopen.1) (.inl rfl) (fun h => h)
  rw [hnode] at hG'
  exact ⟨⟨_, hG', List.prefix_refl _⟩, ⟨_, hG', by simp [BlockAccum.pos], rfl⟩⟩

end KeyboardFirmware.Compiler
