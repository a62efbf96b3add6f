/-
  `TypedAST.hs`: the typed and bound syntax tree, and the type checker that builds it.

  `ThrowsState` with its state is explicit state passing over `ThrowsError`; expressions only read
  the state.  An `Index` is the list of its elements, since every index is filled in order, and a
  `Map` from names is an association list whose newest entry stands first.
-/
import KeyboardFirmware.Compiler.Syntax

namespace KeyboardFirmware.Compiler

abbrev MethodID := Nat
abbrev VariableID := Nat

abbrev VariableScope := List (Ident × VariableID)
abbrev MethodScope := List (Ident × MethodID)

/-- `Map.member`. -/
def scopeMember (nam : Ident) (scope : List (Ident × Nat)) : Bool := (scope.lookup nam).isSome

/-- `TVariable`. -/
structure TVariable where
  id : VariableID
  typ : Typ
  deriving DecidableEq, Repr

/-- `SyscallOp`. -/
inductive SyscallOp where
  | pressKey
  | releaseKey
  | checkKey
  | checkPhysKey
  | waitKey
  | waitPhysKey
  | delay
  | getUptimeMS
  | getUptime
  | buzz
  | buzzAt
  | moveMouse
  | pressMouseButtons
  | releaseMouseButtons
  deriving DecidableEq, Repr

/-- `TExpression`. -/
inductive TExpression where
  | globalStore (t : Typ) (i : VariableID) (e : TExpression)
  | localStore (t : Typ) (i : VariableID) (e : TExpression)
  | globalLoad (t : Typ) (i : VariableID)
  | localLoad (t : Typ) (i : VariableID)
  | prefixExpression (t : Typ) (op : PrefixOp) (e : TExpression)
  | postfixExpression (t : Typ) (e : TExpression) (op : PostfixOp)
  | binaryExpression (t : Typ) (lhs : TExpression) (op : BinaryOp) (rhs : TExpression)
  | shortLiteral (val : VShort)
  | byteLiteral (val : VByte)
  | methodCall (t : Typ) (i : MethodID) (args : List TExpression)
  | syscall (t : Typ) (op : SyscallOp) (args : List TExpression)
  /-- explicit and implicit type conversions -/
  | typeConversion (t : Typ) (e : TExpression)
  /-- a value of which only the truth counts -/
  | booleanConversion (e : TExpression)
  deriving Repr

/-- `TStatement`. -/
inductive TStatement where
  | block (scope : VariableScope) (stats : List TStatement)
  | ifStatement (expr : TExpression) (thenBody : TStatement) (elseBody : Option TStatement)
  | whileStatement (cond : TExpression) (body : TStatement)
  | forStatement (initializer cond iter : TExpression) (body : TStatement)
  | expressionStatement (expr : TExpression)
  | returnValueStatement (expr : TExpression)
  | returnStatement
  | exitStatement
  | breakStatement
  | continueStatement
  | empty
  deriving Repr

/-- `TMethod`. -/
structure TMethod where
  id : MethodID
  retType : Typ
  argTypes : List Typ
  vars : List TVariable
  scope : VariableScope
  body : List TStatement
  deriving Repr

/-- `TProgram`. -/
structure TProgram where
  methods : List TMethod
  vars : List TVariable
  methodScope : MethodScope
  varScope : VariableScope
  deriving Repr

/-- `syscalls`. -/
def syscalls : List (Ident × SyscallOp × Typ × List Typ) :=
  [("pressKey", .pressKey, .void, [.byte]),
   ("releaseKey", .releaseKey, .void, [.byte]),
   ("checkKey", .checkKey, .byte, [.byte]),
   ("checkPhysKey", .checkPhysKey, .byte, [.byte]),
   ("waitKey", .waitKey, .byte, [.byte, .short]),
   ("waitPhysKey", .waitPhysKey, .byte, [.byte, .short]),
   ("delay", .delay, .void, [.short]),
   ("getUptimeMS", .getUptimeMS, .short, []),
   ("getUptime", .getUptime, .short, []),
   ("buzz", .buzz, .void, [.short]),
   ("buzzAt", .buzzAt, .void, [.short, .byte]),
   ("moveMouse", .moveMouse, .void, [.byte, .byte]),
   ("pressMouseButtons", .pressMouseButtons, .void, [.byte]),
   ("releaseMouseButtons", .releaseMouseButtons, .void, [.byte])]

/-! ## Skeleton -/

/-- `addMethodArg`. -/
def addMethodArg (st : List TVariable × VariableScope) (arg : Typ × Ident) :
    List TVariable × VariableScope :=
  (st.1 ++ [⟨st.1.length, arg.1⟩], (arg.2, st.1.length) :: st.2)

/-- `addToProgram`. -/
def addToProgram (p : TProgram) : Declaration → ThrowsError TProgram
  | .methodDeclaration typ nam args _ =>
    let newid := p.methods.length
    let (localVars, localScope) := args.foldl addMethodArg ([], [])
    if scopeMember nam p.methodScope then
      .error (.redefine ("Method '" ++ nam ++ "' already defined"))
    else
      .ok { p with
        methods := p.methods ++ [⟨newid, typ, args.map (·.1), localVars, localScope, []⟩]
        methodScope := (nam, newid) :: p.methodScope }
  | .globalVariableDeclaration typ nam =>
    let newid := p.vars.length
    if scopeMember nam p.varScope then
      .error (.redefine ("Global variable '" ++ nam ++ "' already defined"))
    else
      .ok { p with
        vars := p.vars ++ [⟨newid, typ⟩]
        varScope := (nam, newid) :: p.varScope }

/-- `scanDecs`. -/
def scanDecs (decs : List Declaration) : ThrowsError TProgram :=
  decs.foldlM addToProgram ⟨[], [], [], []⟩

/-! ## Bindings and type checks -/

/-- `BindingState`. -/
structure BindingState where
  methodIndex : List TMethod
  methodScope : MethodScope
  globalVarIndex : List TVariable
  globalVarScope : VariableScope
  varIndex : List TVariable
  varScopes : List VariableScope
  returnType : Typ
  withinLoop : Bool

/-- `typeOf`. -/
def typeOf : TExpression → Typ
  | .globalStore t _ _ => t
  | .localStore t _ _ => t
  | .globalLoad t _ => t
  | .localLoad t _ => t
  | .prefixExpression t _ _ => t
  | .postfixExpression t _ _ => t
  | .binaryExpression t _ _ _ => t
  | .shortLiteral _ => .short
  | .byteLiteral _ => .byte
  | .methodCall t _ _ => t
  | .syscall t _ _ => t
  | .typeConversion t _ => t
  | .booleanConversion _ => .byte

/-- `typePromoteCheck`: always allowed to become a bigger type. -/
def typePromoteCheck (toType : Typ) (e : TExpression) : ThrowsError TExpression :=
  if toType = typeOf e then .ok e
  else if (typeOf e).rank < toType.rank then .ok (.typeConversion toType e)
  else .error (.typeError toType (typeOf e))

/-- `typeCastCheck`: also allowed to become a smaller type, unless void. -/
def typeCastCheck (toType : Typ) (e : TExpression) : ThrowsError TExpression :=
  if toType = typeOf e then .ok e
  else if toType = .void then .ok (.typeConversion toType e)
  else if typeOf e = .void then .error .voidCastError
  else .ok (.typeConversion toType e)

/-- `valueTypeCheck`. -/
def valueTypeCheck (e : TExpression) : ThrowsError TExpression :=
  if typeOf e = .void then .error .needsValueError else .ok e

/-- `booleanConvertCheck`. -/
def booleanConvertCheck (e : TExpression) : ThrowsError TExpression := do
  let e' ← valueTypeCheck e
  .ok (if typeOf e' = .byte then e' else .booleanConversion e')

/-- `lvalueCheck`. -/
def lvalueCheck : Expression → ThrowsError Unit
  | .variableAccess _ => .ok ()
  | _ => .error .lValueError

/-- `nestedMapLookup`. -/
def nestedMapLookup (s : String) (nam : Ident) : List VariableScope → ThrowsError VariableID
  | [] => .error (.mapLookupError s nam)
  | m :: ms =>
    match m.lookup nam with
    | some i => .ok i
    | none => nestedMapLookup s nam ms

/-- `lookupLocalVar`. -/
def lookupLocalVar (st : BindingState) (nam : Ident) : ThrowsError TVariable := do
  let varid ← nestedMapLookup "LocalScope" nam st.varScopes
  maybeToError (.mapLookupError "LocalVarID" (toString varid)) st.varIndex[varid]?

/-- `lookupGlobalVar`. -/
def lookupGlobalVar (st : BindingState) (nam : Ident) : ThrowsError TVariable := do
  let varid ← maybeToError (.mapLookupError "GlobalScope" nam) (st.globalVarScope.lookup nam)
  maybeToError (.mapLookupError "GlobalVarID" (toString varid)) st.globalVarIndex[varid]?

/-- `lookupMethod`. -/
def lookupMethod (st : BindingState) (nam : Ident) : ThrowsError TMethod := do
  let methid ← maybeToError (.mapLookupError "MethodScope" nam) (st.methodScope.lookup nam)
  maybeToError (.mapLookupError "MethodID" (toString methid)) st.methodIndex[methid]?

/-! ## Expressions -/

/-- `outType`: the result type of a binary operator on operands of type `t`. -/
def outType (t : Typ) (op : BinaryOp) : Typ := if op.isComparison then .byte else t

/-- `resolveInvocation`: what a name called with arguments stands for, and its argument types. -/
def resolveInvocation (st : BindingState) (mName : Ident) :
    ThrowsError ((List TExpression → TExpression) × List Typ) :=
  orTry
    (do
      let m ← lookupMethod st mName
      .ok (.methodCall m.retType m.id, m.argTypes))
    (do
      let (op, retTyp, argTypes) ←
        maybeToError (.undefinedMethodError mName) (syscalls.lookup mName)
      .ok (.syscall retTyp op, argTypes))

mutual

/-- `buildTExpression`. -/
def buildTExpression (st : BindingState) : Expression → ThrowsError TExpression
  | .assignment (.variableAccess varName) e2 => do
    let (tStor, typ) ←
      orTry (do let v ← lookupLocalVar st varName; .ok (TExpression.localStore v.typ v.id, v.typ))
        (orTry
          (do let v ← lookupGlobalVar st varName; .ok (TExpression.globalStore v.typ v.id, v.typ))
          (.error (.undefinedVarError varName)))
    let tE2 ← buildTExpression st e2
    let tE2' ← typePromoteCheck typ tE2
    .ok (tStor tE2')
  | .assignment _ _ => .error .lValueError
  | .prefixExpression .not e1 => do
    let tE1 ← buildTExpression st e1
    let tE1' ← booleanConvertCheck tE1
    .ok (.prefixExpression .byte .not tE1')
  | .prefixExpression .minus (.shortLiteral s) => .ok (.shortLiteral (-s))
  | .prefixExpression .minus (.byteLiteral b) => .ok (.byteLiteral (-b))
  | .prefixExpression op e1 => do
    if op = .predecrement ∨ op = .preincrement then lvalueCheck e1
    let tE1 ← buildTExpression st e1
    let tE1' ← valueTypeCheck tE1
    .ok (.prefixExpression (typeOf tE1') op tE1')
  | .postfixExpression e1 op => do
    lvalueCheck e1
    let tE1 ← buildTExpression st e1
    let tE1' ← valueTypeCheck tE1
    .ok (.postfixExpression (typeOf tE1') tE1' op)
  | .binaryExpression e1 op e2 => do
    let tE1 ← buildTExpression st e1
    if op.isLogical then
      let tE1' ← booleanConvertCheck tE1
      let tE2 ← buildTExpression st e2
      let tE2' ← booleanConvertCheck tE2
      .ok (.binaryExpression .byte tE1' op tE2')
    else
      let tE1 ← valueTypeCheck tE1
      let tE2 ← buildTExpression st e2
      let tE2 ← valueTypeCheck tE2
      let maxType := (typeOf tE1).max (typeOf tE2)
      let tE1' ← typePromoteCheck maxType tE1
      let tE2' ← typePromoteCheck maxType tE2
      .ok (.binaryExpression (outType maxType op) tE1' op tE2')
  | .shortLiteral val => .ok (.shortLiteral val)
  | .byteLiteral val => .ok (.byteLiteral val)
  | .variableAccess varName =>
    orTry (do let v ← lookupLocalVar st varName; .ok (.localLoad v.typ v.id))
      (orTry (do let v ← lookupGlobalVar st varName; .ok (.globalLoad v.typ v.id))
        (.error (.undefinedVarError varName)))
  | .methodInvocation methName args => do
    let (constr, argTypes) ← resolveInvocation st methName
    guardError (.methodArgsError methName argTypes.length) (argTypes.length = args.length)
    let tArgs ← buildTArgs st args
    let tArgs' ← (argTypes.zip tArgs).mapM fun a => typePromoteCheck a.1 a.2
    .ok (constr tArgs')
  | .typeCast typ expr => do
    let tE ← buildTExpression st expr
    typeCastCheck typ tE

/-- `mapM buildTExpression`. -/
def buildTArgs (st : BindingState) : List Expression → ThrowsError (List TExpression)
  | [] => .ok []
  | e :: es => do
    let tE ← buildTExpression st e
    let tEs ← buildTArgs st es
    .ok (tE :: tEs)

end

/-! ## Statements -/

/-- `addLocalVariable`. -/
def addLocalVariable (lvTyp : Typ) (lvNam : Ident) (st : BindingState) :
    ThrowsError (VariableID × BindingState) :=
  match st.varScopes with
  | [] => .error (.exception "no scope")
  | vscope :: vsrest => do
    guardError (.redefine ("Variable " ++ lvNam ++ " already exists in scope"))
      (! scopeMember lvNam vscope)
    let newid := st.varIndex.length
    .ok (newid, { st with
      varIndex := st.varIndex ++ [⟨newid, lvTyp⟩]
      varScopes := ((lvNam, newid) :: vscope) :: vsrest })

mutual

/-- `buildTStatement`. -/
def buildTStatement : Statement → BindingState → ThrowsError (TStatement × BindingState)
  | .block stats, st => do
    let (tStats, st') ← buildTStatements stats { st with varScopes := [] :: st.varScopes }
    match st'.varScopes with
    | [] => .error (.exception "no scope")
    | vs :: vss => .ok (.block vs tStats, { st' with varScopes := vss })
  | .ifStatement expr thenBody elseBody, st => do
    let tExpr ← buildTExpression st expr
    let tExpr' ← booleanConvertCheck tExpr
    let (tThenBody, st) ← buildTStatement thenBody st
    let (tElseBody, st) ← buildTElse elseBody st
    .ok (.ifStatement tExpr' tThenBody tElseBody, st)
  | .whileStatement cond body, st => do
    let tCond ← buildTExpression st cond
    let tCond' ← booleanConvertCheck tCond
    let (tBody, st') ← buildTStatement body { st with withinLoop := true }
    .ok (.whileStatement tCond' tBody, { st' with withinLoop := st.withinLoop })
  | .forStatement initializer cond iter body, st => do
    let tInit ← buildTExpression st initializer
    let tCond ← buildTExpression st cond
    let tCond' ← booleanConvertCheck tCond
    let tIter ← buildTExpression st iter
    let (tBody, st') ← buildTStatement body { st with withinLoop := true }
    .ok (.forStatement tInit tCond' tIter tBody, { st' with withinLoop := st.withinLoop })
  | .breakStatement, st => do
    guardError (.defaultError "Cannot break, not in a loop body") st.withinLoop
    .ok (.breakStatement, st)
  | .continueStatement, st => do
    guardError (.defaultError "Cannot continue, not in a loop body") st.withinLoop
    .ok (.continueStatement, st)
  | .variableDeclarationStatement typ nam initializer, st => do
    if typ = .void then throw (.defaultError "Cannot declare variable as void")
    let (varId, st) ← addLocalVariable typ nam st
    match initializer with
    | none => .ok (.empty, st)
    | some expr => do
      let tExpr ← buildTExpression st expr
      let tExpr' ← typePromoteCheck typ tExpr
      .ok (.expressionStatement (.localStore typ varId tExpr'), st)
  | .expressionStatement expr, st => do
    let tExpr ← buildTExpression st expr
    let tExpr' ← typePromoteCheck .void tExpr
    .ok (.expressionStatement tExpr', st)
  | .returnStatement, st => do
    guardError (.returnTypeError st.returnType .void) (st.returnType = .void)
    .ok (.returnStatement, st)
  | .exitStatement, st => .ok (.exitStatement, st)
  | .returnValueStatement expr, st => do
    let tExpr ← buildTExpression st expr
    let tExpr' ← typePromoteCheck st.returnType tExpr
    guardError (.returnTypeError st.returnType (typeOf tExpr')) (st.returnType ≠ .void)
    .ok (.returnValueStatement tExpr', st)

/-- `mapM buildTStatement`. -/
def buildTStatements : List Statement → BindingState → ThrowsError (List TStatement × BindingState)
  | [], st => .ok ([], st)
  | s :: ss, st => do
    let (tStat, st) ← buildTStatement s st
    let (tStats, st) ← buildTStatements ss st
    .ok (tStat :: tStats, st)

/-- The optional else branch. -/
def buildTElse : Option Statement → BindingState → ThrowsError (Option TStatement × BindingState)
  | none, st => .ok (none, st)
  | some s, st => do
    let (tStat, st) ← buildTStatement s st
    .ok (some tStat, st)

end

/-! ## Programs -/

/-- `buildTMethod`. -/
def buildTMethod (p : TProgram) : Declaration → ThrowsError TProgram
  | .globalVariableDeclaration _ _ => .ok p
  | .methodDeclaration _ nam _ body => do
    guardError (.redefine ("Method \"" ++ nam ++ "\" conflicts with built-in"))
      (syscalls.lookup nam).isNone
    let methodId ← maybeToError (.mapLookupError "MethodScope" nam) (p.methodScope.lookup nam)
    let m ← maybeToError (.mapLookupError "IRMethod" (toString methodId)) p.methods[methodId]?
    let inputState : BindingState :=
      { methodIndex := p.methods
        methodScope := p.methodScope
        globalVarIndex := p.vars
        globalVarScope := p.varScope
        varIndex := m.vars
        varScopes := [m.scope]
        returnType := m.retType
        withinLoop := false }
    let (tStats, st) ← buildTStatements body inputState
    match st.varScopes with
    | [scope] =>
      .ok { p with
        methods := p.methods.set methodId ⟨methodId, m.retType, m.argTypes, st.varIndex, scope, tStats⟩ }
    | _ => .error (.exception "unbalanced scopes")

/-- `buildTProgram`: the skeletons first, then the bodies in order. -/
def buildTProgram (decs : List Declaration) : ThrowsError TProgram := do
  let p ← scanDecs decs
  decs.foldlM buildTMethod p

end KeyboardFirmware.Compiler
