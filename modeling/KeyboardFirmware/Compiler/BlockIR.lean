/-
  `BlockIR.hs`: the control-flow graph of basic blocks that a method compiles to.

  `ThrowsState` is `StateT` over `ThrowsError`.  The graph library numbers new nodes with the next
  free number, so a graph is the count of its nodes so far and what each number stands for; an
  absent number is a node that was never made or has been deleted.

  The source's clauses for one expression call each other on that same expression (a comparison as
  a value is built as a condition, a variable as a condition is built as a value), so the three
  codes of an expression are built together, `ExprCode`, from those of its parts.
-/
import KeyboardFirmware.Compiler.ConstantEval
import KeyboardFirmware.Vm.Operators

namespace KeyboardFirmware.Compiler

open Vm (CondOp conditionFor)

/-- `ArithOp`. -/
inductive ArithOp where
  | add
  | subtract
  | multiply
  | divide
  | mod
  | and
  | or
  | xor
  | complement
  | cmp
  | lshift
  | rshift
  deriving DecidableEq, Repr

/-- `IRInstruction`. -/
inductive IRInstruction where
  | store (i : VariableID)
  | load (i : VariableID)
  | gstore (i : VariableID)
  | gload (i : VariableID)
  | bconst (v : VByte)
  | sconst (v : VShort)
  | dup (t : Typ)
  | pop (t : Typ)
  | swap (t : Typ)
  | arith (t : Typ) (op : ArithOp)
  | s2b
  | b2s
  | call (i : MethodID)
  | return (t : Typ)
  | exit
  | syscall (op : SyscallOp)
  | dummy (s : String)
  deriving DecidableEq, Repr

/-- `IREdge`. -/
inductive IREdge where
  | conditional (c : CondOp)
  | default
  deriving DecidableEq, Repr

/-- A node of the graph: the instructions of its block and its edges, in the order of insertion. -/
structure IRNode (α : Type) where
  instrs : List α
  edges : List (IREdge × Nat)
  deriving DecidableEq, Repr

/-- `IRGraph`. -/
structure IRGraph (α : Type) where
  size : Nat
  node : Nat → Option (IRNode α)

variable {α : Type}

/-- `empty`. -/
def IRGraph.empty : IRGraph α := ⟨0, fun _ => none⟩

/-- Replace what a number stands for. -/
def IRGraph.set (g : IRGraph α) (n : Nat) (b : Option (IRNode α)) : IRGraph α :=
  { g with node := fun m => if m = n then b else g.node m }

/-- `insNode`, on a fresh number. -/
def IRGraph.insNode (g : IRGraph α) : IRGraph α :=
  { g.set g.size (some ⟨[], []⟩) with size := g.size + 1 }

/-- `nodes`. -/
def IRGraph.nodes (g : IRGraph α) : List Nat :=
  (List.range g.size).filter fun n => (g.node n).isSome

/-- The edges out of a node. -/
def IRGraph.out (g : IRGraph α) (n : Nat) : List (IREdge × Nat) :=
  ((g.node n).map (·.edges)).getD []

/-- `pre`: the nodes with an edge to a node. -/
def IRGraph.pre (g : IRGraph α) (n : Nat) : List Nat :=
  g.nodes.filter fun m => (g.out m).any fun e => e.2 = n

/-- `delNodes`: a node is deleted with all its edges. -/
def IRGraph.delNodes (g : IRGraph α) (ns : List Nat) : IRGraph α :=
  { g with node := fun m =>
      if m ∈ ns then none
      else (g.node m).map fun b => { b with edges := b.edges.filter fun e => e.2 ∉ ns } }

/-- `BlockingState`; `noBlock` is `none`. -/
structure BlockingState where
  blockGraph : IRGraph IRInstruction
  continueBlockId : Option Nat
  breakBlockId : Option Nat

/-- `ThrowsBlockingState`. -/
abbrev ThrowsBlockingState := StateT BlockingState ThrowsError

/-- `emptyState`. -/
def emptyState : BlockingState := ⟨IRGraph.empty, none, none⟩

/-- `BlockAccum`: the instructions are reversed. -/
structure BlockAccum where
  id : Nat
  revInstrs : List IRInstruction

/-- `appendInstructions`. -/
def appendInstructions (is : List IRInstruction) (acc : BlockAccum) : BlockAccum :=
  ⟨acc.id, is.reverse ++ acc.revInstrs⟩

/-- `newBasicBlock`. -/
def newBasicBlock : ThrowsBlockingState BlockAccum := do
  let st ← get
  let newId := st.blockGraph.size
  set { st with blockGraph := st.blockGraph.insNode }
  return ⟨newId, []⟩

/-- `matchThrows`: the node that a graph is taken apart at. -/
def matchThrows (n : Nat) (g : IRGraph α) : ThrowsError (IRNode α) :=
  maybeToError (.graphLookupError n) (g.node n)

/-- `updateNode`. -/
def updateNode (fn : List α → List α) (g : IRGraph α) (n : Nat) : ThrowsError (IRGraph α) := do
  let old ← matchThrows n g
  .ok (g.set n (some { old with instrs := fn old.instrs }))

/-- `updateNodes`. -/
def updateNodes (fn : List α → List α) (g : IRGraph α) (ns : List Nat) : ThrowsError (IRGraph α) :=
  ns.foldlM (updateNode fn) g

/-- `updateBlockContents`. -/
def updateBlockContents (acc : BlockAccum) (g : IRGraph IRInstruction) :
    ThrowsError (IRGraph IRInstruction) := do
  let old ← maybeToError (.internalError "Block doesn't exist") (g.node acc.id)
  guardError (.internalError "Updating already committed block") old.instrs.isEmpty
  updateNode (fun _ => acc.revInstrs.reverse) g acc.id

/-- `insEdge`. -/
def insEdge (src : Nat) (g : IRGraph α) (e : IREdge × Nat) : IRGraph α :=
  g.set src ((g.node src).map fun b => { b with edges := b.edges ++ [e] })

/-- `commitBasicBlock`. -/
def commitBasicBlock (edges : List (IREdge × Nat)) (acc : BlockAccum) :
    ThrowsBlockingState Unit := do
  let st ← get
  let g ← updateBlockContents acc st.blockGraph
  set { st with blockGraph := edges.foldl (insEdge acc.id) g }

/-- `withLoopEnvironment`. -/
def withLoopEnvironment {β : Type} (contId breakId : Nat) (body : ThrowsBlockingState β) :
    ThrowsBlockingState β := do
  let olds ← get
  set { olds with continueBlockId := some contId, breakBlockId := some breakId }
  let bodyret ← body
  modify fun s =>
    { s with continueBlockId := olds.continueBlockId, breakBlockId := olds.breakBlockId }
  return bodyret

/-! ## Expressions -/

/-- `irConst`; no variable has the type void. -/
def irConst : Typ → Nat → IRInstruction
  | .byte, i => .bconst (BitVec.ofNat 8 i)
  | .short, i => .sconst (BitVec.ofNat 16 i)
  | .void, _ => .dummy "void constant"

/-- `mkPrefixInstr`. -/
def mkPrefixInstr (t : Typ) (op : PrefixOp) : IRInstruction :=
  .arith t (if op = .preincrement then .add else .subtract)

/-- `mkPostfixInstr`. -/
def mkPostfixInstr (t : Typ) (op : PostfixOp) : IRInstruction :=
  .arith t (if op = .postincrement then .add else .subtract)

/-- `opFor`. -/
def opFor : BinaryOp → Option ArithOp
  | .add => some .add
  | .subtract => some .subtract
  | .multiply => some .multiply
  | .divide => some .divide
  | .mod => some .mod
  | .and => some .and
  | .or => some .or
  | .xor => some .xor
  | .lshift => some .lshift
  | .rshift => some .rshift
  | _ => none

/-- `flipOp`. -/
def flipOp : BinaryOp → BinaryOp
  | .gt => .le
  | .lt => .ge
  | .ge => .lt
  | .le => .gt
  | op => op

/-- `isZero`. -/
def isZero : TExpression → Bool
  | .shortLiteral v => v = 0
  | .byteLiteral v => v = 0
  | _ => false

/-- The code of an expression in a context. -/
abbrev Code := BlockAccum → ThrowsBlockingState BlockAccum

/-- The code of an expression as a condition with its two targets. -/
abbrev CondCode := Nat → Nat → BlockAccum → ThrowsBlockingState Unit

/-- The codes of an expression: in `ValueContext`, in `VoidContext`, and as a condition. -/
structure ExprCode where
  value : Code
  void : Code
  cond : CondCode

/-- `appendInstructionsM`. -/
def appendInstructionsM (is : List IRInstruction) : Code := fun acc =>
  return appendInstructions is acc

/-- The last clause of `buildIRExpression`: no code in `ValueContext`. -/
def notMatched : Code := fun _ =>
  throw (.internalError "Value context TExpression not matched for IR")

/-- `booleanCast`. -/
def booleanCast : Typ → Code
  | .byte, acc => return acc
  | .short, acc => appendInstructionsM [.arith .byte .or] acc
  | .void, _ => throw (.internalError "Bad type at boolean cast")

/-- `discardValue`. -/
def discardValue : Typ → Code
  | .void, acc => return acc
  | t, acc => appendInstructionsM [.pop t] acc

/-- The code of `TBooleanConversion e` in `ValueContext`, from that of `e`. -/
def booleanValue (t : Typ) (value : Code) : Code := fun acc => do
  let acc ← value acc
  booleanCast t acc

/-- `conditionalToBooleanValue`. -/
def conditionalToBooleanValue (cond : CondCode) : Code := fun acc => do
  let thenAccum ← newBasicBlock
  let elseAccum ← newBasicBlock
  let afterAccum ← newBasicBlock
  cond thenAccum.id elseAccum.id acc
  let thenAccum ← appendInstructionsM [.bconst 1] thenAccum
  commitBasicBlock [(.default, afterAccum.id)] thenAccum
  let elseAccum ← appendInstructionsM [.bconst 0] elseAccum
  commitBasicBlock [(.default, afterAccum.id)] elseAccum
  return afterAccum

/-- `conditionalToVoid`. -/
def conditionalToVoid (cond : CondCode) : Code := fun acc => do
  let afterAccum ← newBasicBlock
  cond afterAccum.id afterAccum.id acc
  return afterAccum

/-- The last clause of `buildConditionalIRExpression`. -/
def condOfValue (value : Code) : CondCode := fun ifId elseId acc => do
  let acc ← value acc
  commitBasicBlock [(.conditional .ifNe, ifId), (.default, elseId)] acc

/-- `buildConditionalIRExpression` of a negation. -/
def condNot (cond : CondCode) : CondCode := fun ifId elseId acc => cond elseId ifId acc

/-- `buildConditionalIRExpression` of `||`. -/
def condDisj (lhs rhs : CondCode) : CondCode := fun ifId elseId acc => do
  let rhsAccum ← newBasicBlock
  lhs ifId rhsAccum.id acc
  rhs ifId elseId rhsAccum

/-- `buildConditionalIRExpression` of `&&`. -/
def condConj (lhs rhs : CondCode) : CondCode := fun ifId elseId acc => do
  let rhsAccum ← newBasicBlock
  lhs rhsAccum.id elseId acc
  rhs ifId elseId rhsAccum

/-- `buildConditionalIRExpression` of a constant. -/
def condConstant (nonZero : Bool) : CondCode := fun ifId elseId acc =>
  commitBasicBlock [(.default, if nonZero then ifId else elseId)] acc

/-- `buildConditionalIRExpression` of a comparison of operands of the types `t` and `tr`. -/
def condComparison (t tr : Typ) (op : BinaryOp) (zLhs zRhs : Bool) (lhs rhs : Code) : CondCode :=
  fun ifId elseId acc => do
    guardError (.internalError "Saw 0==0, what happened to constant folding?") (!(zLhs && zRhs))
    let op' := if zLhs then flipOp op else op
    let lhs' := if zRhs then booleanValue t lhs else lhs
    let rhs' := if zLhs then booleanValue tr rhs else rhs
    let acc ← (if zLhs then pure else lhs') acc
    let acc ← (if zRhs then pure else rhs') acc
    let acc ← (if zLhs || zRhs then pure else appendInstructionsM [.arith t .cmp]) acc
    commitBasicBlock [(.conditional (conditionFor op'), ifId), (.default, elseId)] acc

/-- The codes of an expression that is built as a value. -/
def ExprCode.ofValue (value void : Code) : ExprCode := ⟨value, void, condOfValue value⟩

/-- The codes of an expression that is built as a condition. -/
def ExprCode.ofCond (cond : CondCode) (void : Code) : ExprCode :=
  ⟨conditionalToBooleanValue cond, void, cond⟩

/-- Read, change and write a variable (`load`, `store`), with the copies of its value that
    `ValueContext` keeps. -/
def stepCode (load store step : IRInstruction) (t : Typ) (before after : List IRInstruction) : Code :=
  appendInstructionsM ([load] ++ before ++ [irConst t 1, step] ++ after ++ [store])

/-- The codes of `++x` and `--x`. -/
def prefixStep (op : PrefixOp) : TExpression → Option ExprCode
  | .globalLoad t i => some <| .ofValue
      (stepCode (.gload i) (.gstore i) (mkPrefixInstr t op) t [] [.dup t])
      (stepCode (.gload i) (.gstore i) (mkPrefixInstr t op) t [] [])
  | .localLoad t i => some <| .ofValue
      (stepCode (.load i) (.store i) (mkPrefixInstr t op) t [] [.dup t])
      (stepCode (.load i) (.store i) (mkPrefixInstr t op) t [] [])
  | _ => none

/-- The codes of `x++` and `x--`. -/
def postfixStep (op : PostfixOp) : TExpression → ExprCode
  | .globalLoad t i => .ofValue
      (stepCode (.gload i) (.gstore i) (mkPostfixInstr t op) t [.dup t] [])
      (stepCode (.gload i) (.gstore i) (mkPostfixInstr t op) t [] [])
  | .localLoad t i => .ofValue
      (stepCode (.load i) (.store i) (mkPostfixInstr t op) t [.dup t] [])
      (stepCode (.load i) (.store i) (mkPostfixInstr t op) t [] [])
  | _ => .ofValue notMatched notMatched

mutual

/-- `buildIRExpression` and `buildConditionalIRExpression`. -/
def exprCode : TExpression → ExprCode
  | .globalStore t i e => .ofValue
      (fun acc => do appendInstructionsM [.dup t, .gstore i] (← (exprCode e).value acc))
      (fun acc => do appendInstructionsM [.gstore i] (← (exprCode e).value acc))
  | .localStore t i e => .ofValue
      (fun acc => do appendInstructionsM [.dup t, .store i] (← (exprCode e).value acc))
      (fun acc => do appendInstructionsM [.store i] (← (exprCode e).value acc))
  | .globalLoad _ i => .ofValue (appendInstructionsM [.gload i]) pure
  | .localLoad _ i => .ofValue (appendInstructionsM [.load i]) pure
  | .prefixExpression _ .not e =>
    .ofCond (condNot (exprCode e).cond) (conditionalToVoid (condNot (exprCode e).cond))
  | .prefixExpression t .complement e => .ofValue
      (fun acc => do appendInstructionsM [.arith t .complement] (← (exprCode e).value acc))
      (exprCode e).void
  | .prefixExpression t .minus e => .ofValue
      (fun acc => do
        let acc ← appendInstructionsM [irConst t 0] acc
        appendInstructionsM [.arith t .subtract] (← (exprCode e).value acc))
      (exprCode e).void
  | .prefixExpression _ op e =>
    -- only a variable can be stepped
    (prefixStep op e).getD (.ofValue notMatched (exprCode e).void)
  | .postfixExpression _ e op => postfixStep op e
  | .binaryExpression _ lhs .conj rhs =>
    .ofCond (condConj (exprCode lhs).cond (exprCode rhs).cond)
      (conditionalToVoid (condConj (exprCode lhs).cond (exprCode rhs).cond))
  | .binaryExpression _ lhs .disj rhs =>
    .ofCond (condDisj (exprCode lhs).cond (exprCode rhs).cond)
      (conditionalToVoid (condDisj (exprCode lhs).cond (exprCode rhs).cond))
  | .binaryExpression t lhs op rhs =>
    let void : Code := fun acc => do (exprCode rhs).void (← (exprCode lhs).void acc)
    match opFor op with
    | some aop => .ofValue
        (fun acc => do
          let acc ← (exprCode lhs).value acc
          appendInstructionsM [.arith t aop] (← (exprCode rhs).value acc))
        void
    | none =>
      .ofCond (condComparison (typeOf lhs) (typeOf rhs) op (isZero lhs) (isZero rhs)
        (exprCode lhs).value (exprCode rhs).value) void
  | .shortLiteral val => ⟨appendInstructionsM [.sconst val], pure, condConstant (val ≠ 0)⟩
  | .byteLiteral val => ⟨appendInstructionsM [.bconst val], pure, condConstant (val ≠ 0)⟩
  | .methodCall t i args =>
    let value : Code := fun acc => do appendInstructionsM [.call i] (← argsCode args acc)
    .ofValue value fun acc => do discardValue t (← value acc)
  | .syscall t op args =>
    let value : Code := fun acc => do appendInstructionsM [.syscall op] (← argsCode args acc)
    .ofValue value fun acc => do discardValue t (← value acc)
  | .typeConversion .void e => .ofValue (exprCode e).void (exprCode e).void
  | .typeConversion .short e => .ofValue
      (fun acc => do
        guardError (.internalError "Unexpected value context") (typeOf e = .byte)
        appendInstructionsM [.b2s] (← (exprCode e).value acc))
      (exprCode e).void
  | .typeConversion .byte e => .ofValue
      (fun acc => do
        guardError (.internalError "Unexpected value context") (typeOf e = .short)
        appendInstructionsM [.s2b] (← (exprCode e).value acc))
      (exprCode e).void
  | .booleanConversion e => .ofValue (booleanValue (typeOf e) (exprCode e).value) (exprCode e).void

/-- `foldM` of `buildIRExpression ValueContext` over arguments. -/
def argsCode : List TExpression → Code
  | [], acc => return acc
  | e :: es, acc => do argsCode es (← (exprCode e).value acc)

end

/-- `ExpressionContext`. -/
inductive ExpressionContext where
  | value
  | void
  deriving DecidableEq, Repr

/-- `buildIRExpression`. -/
def buildIRExpression : ExpressionContext → TExpression → Code
  | .value, e => (exprCode e).value
  | .void, e => (exprCode e).void

/-- `buildConditionalIRExpression`. -/
def buildConditionalIRExpression (ifId elseId : Nat) (e : TExpression) (acc : BlockAccum) :
    ThrowsBlockingState Unit :=
  (exprCode e).cond ifId elseId acc

/-! ## Statements -/

mutual

/-- `buildIRStatement`. -/
def buildIRStatement : TStatement → Code
  | .block _ stats, acc => buildIRStatements stats acc
  | .ifStatement expr thenBody elseBody, inAccum => do
    let thenAccum ← newBasicBlock
    let followingAccum ← newBasicBlock
    match elseBody with
    | none =>
      buildConditionalIRExpression thenAccum.id followingAccum.id expr inAccum
      let thenEnd ← buildIRStatement thenBody thenAccum
      commitBasicBlock [(.default, followingAccum.id)] thenEnd
    | some elseBody =>
      let elseAccum ← newBasicBlock
      buildConditionalIRExpression thenAccum.id elseAccum.id expr inAccum
      let thenEnd ← buildIRStatement thenBody thenAccum
      commitBasicBlock [(.default, followingAccum.id)] thenEnd
      let elseEnd ← buildIRStatement elseBody elseAccum
      commitBasicBlock [(.default, followingAccum.id)] elseEnd
    return followingAccum
  | .whileStatement cond body, inAccum => do
    let condAccum ← newBasicBlock
    let bodyAccum ← newBasicBlock
    let followingAccum ← newBasicBlock
    commitBasicBlock [(.default, condAccum.id)] inAccum
    buildConditionalIRExpression bodyAccum.id followingAccum.id cond condAccum
    withLoopEnvironment bodyAccum.id followingAccum.id do
      let bodyEnd ← buildIRStatement body bodyAccum
      commitBasicBlock [(.default, condAccum.id)] bodyEnd
    return followingAccum
  | .forStatement initializer cond iter body, inAccum => do
    let condAccum ← newBasicBlock
    let bodyAccum ← newBasicBlock
    let followingAccum ← newBasicBlock
    let initEnd ← buildIRExpression .void initializer inAccum
    commitBasicBlock [(.default, condAccum.id)] initEnd
    buildConditionalIRExpression bodyAccum.id followingAccum.id cond condAccum
    withLoopEnvironment bodyAccum.id followingAccum.id do
      let bodyEnd ← buildIRStatement body bodyAccum
      let iterEnd ← buildIRExpression .void iter bodyEnd
      commitBasicBlock [(.default, condAccum.id)] iterEnd
    return followingAccum
  | .breakStatement, inAccum => do
    let breakId := (← get).breakBlockId
    match breakId with
    | none =>
      throw (.internalError "Cannot break, not in a loop body (should be caught at TAST)")
    | some breakId =>
      commitBasicBlock [(.default, breakId)] inAccum
      -- dead code, unless some other block leads here
      newBasicBlock
  | .continueStatement, inAccum => do
    let continueId := (← get).continueBlockId
    match continueId with
    | none => throw (.defaultError "Cannot continue, not in a loop body")
    | some continueId =>
      commitBasicBlock [(.default, continueId)] inAccum
      newBasicBlock
  | .exitStatement, inAccum => do
    commitBasicBlock [] (← appendInstructionsM [.exit] inAccum)
    newBasicBlock
  | .returnStatement, inAccum => do
    commitBasicBlock [] (← appendInstructionsM [.return .void] inAccum)
    newBasicBlock
  | .returnValueStatement expr, inAccum => do
    let acc ← buildIRExpression .value expr inAccum
    commitBasicBlock [] (← appendInstructionsM [.return (typeOf expr)] acc)
    newBasicBlock
  | .expressionStatement expr, inAccum => buildIRExpression .void expr inAccum
  | .empty, inAccum => return inAccum

/-- `foldM` of `buildIRStatement`. -/
def buildIRStatements : List TStatement → Code
  | [], acc => return acc
  | s :: ss, acc => do buildIRStatements ss (← buildIRStatement s acc)

end

/-! ## Methods -/

/-- `deadCodeNodes`: no edge leads there, and it is not the entry. -/
def deadCodeNodes (g : IRGraph α) : List Nat :=
  g.nodes.filter fun n => n ≠ 0 ∧ g.pre n = []

/-- The rounds of `cleanGraph`; every round but the last deletes a node. -/
def cleanRounds (fuel : Nat) (g : IRGraph α) : IRGraph α :=
  match fuel with
  | 0 => g
  | fuel + 1 => if deadCodeNodes g = [] then g else cleanRounds fuel (g.delNodes (deadCodeNodes g))

/-- `cleanGraph`. -/
def cleanGraph (g : IRGraph α) : IRGraph α := cleanRounds g.size g

/-- `noReturnBlock`. -/
def noReturnBlock (instrs : List IRInstruction) : Bool :=
  match instrs.getLast? with
  | none => true
  | some .exit => false
  | some (.return _) => false
  | some _ => true

/-- `noReturnExitBlocks`. -/
def noReturnExitBlocks (g : IRGraph IRInstruction) : List Nat :=
  g.nodes.filter fun n =>
    match g.node n with
    | some b => b.edges.isEmpty && noReturnBlock b.instrs
    | none => false

/-- `checkReturns`. -/
def checkReturns (mId : MethodID) (g : IRGraph IRInstruction) :
    Typ → ThrowsError (IRGraph IRInstruction)
  | .void => updateNodes (· ++ [.return .void]) g (noReturnExitBlocks g)
  | _ =>
    if noReturnExitBlocks g = [] then .ok g
    else .error (.noReturnError ("Method " ++ toString mId ++ " missing return"))

/-- `IRMethod`. -/
structure IRMethod where
  id : MethodID
  argTypes : List Typ
  graph : IRGraph IRInstruction
  vars : List TVariable

/-- `IRProgram`. -/
structure IRProgram where
  methods : List IRMethod
  vars : List TVariable

/-- The body of a method, in a state of its own. -/
def buildBody (stats : List TStatement) : ThrowsBlockingState Unit := do
  let acc ← newBasicBlock
  let acc ← buildIRStatements stats acc
  commitBasicBlock [] acc

/-- `buildIRMethod`. -/
def buildIRMethod (m : TMethod) : ThrowsError IRMethod := do
  let (_, st) ← (buildBody m.body).run emptyState
  let g ← checkReturns m.id (cleanGraph st.blockGraph) m.retType
  .ok ⟨m.id, m.argTypes, g, m.vars⟩

/-- `buildIR`. -/
def buildIR (p : TProgram) : ThrowsError IRProgram := do
  let methods ← p.methods.mapM buildIRMethod
  .ok ⟨methods, p.vars⟩

end KeyboardFirmware.Compiler
