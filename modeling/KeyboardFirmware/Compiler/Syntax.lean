/-
  The source language of `keyc`: types, operators and the parser's syntax tree
  (`BasicTypes.hs`, the data types of `Parser.hs`, `Errors.hs`).

  Bytes and shorts are two's complement words, `Int8` and `Int16` in the source.  Errors keep their
  kind and the data that decides them; the rendering of the offending expression that Haskell
  appends for the user is left out.
-/
import Mathlib

namespace KeyboardFirmware.Compiler

/-- `Ident`. -/
abbrev Ident := String

/-- `Int8`, and the VM's `vbyte`. -/
abbrev VByte := BitVec 8

/-- `Int16`, and the VM's `vshort`. -/
abbrev VShort := BitVec 16

/-- `Type`. -/
inductive Typ where
  | byte
  | short
  | void
  deriving DecidableEq, Repr

/-- The position in the derived order of `Type`: if `t1 < t2`, `t1` can become `t2` without a
    cast. -/
def Typ.rank : Typ → Nat
  | byte => 0
  | short => 1
  | void => 2

/-- `max` of the derived order. -/
def Typ.max (t u : Typ) : Typ := if t.rank ≤ u.rank then u else t

/-- `PrefixOp`. -/
inductive PrefixOp where
  | minus
  | not
  | complement
  | predecrement
  | preincrement
  deriving DecidableEq, Repr

/-- `PostfixOp`. -/
inductive PostfixOp where
  | postdecrement
  | postincrement
  deriving DecidableEq, Repr

/-- `BinaryOp`. -/
inductive BinaryOp where
  | add
  | subtract
  | multiply
  | divide
  | mod
  | and
  | or
  | xor
  | lshift
  | rshift
  | gt
  | ge
  | lt
  | le
  | eq
  | ne
  | conj
  | disj
  deriving DecidableEq, Repr

/-- The relational operators. -/
def BinaryOp.isComparison : BinaryOp → Bool
  | gt | ge | lt | le | eq | ne => true
  | _ => false

/-- `&&` and `||`. -/
def BinaryOp.isLogical : BinaryOp → Bool
  | conj | disj => true
  | _ => false

/-- `Expression`. -/
inductive Expression where
  | assignment (lhs rhs : Expression)
  | prefixExpression (op : PrefixOp) (e : Expression)
  | postfixExpression (e : Expression) (op : PostfixOp)
  | binaryExpression (lhs : Expression) (op : BinaryOp) (rhs : Expression)
  | shortLiteral (val : VShort)
  | byteLiteral (val : VByte)
  | variableAccess (varName : Ident)
  | methodInvocation (methName : Ident) (args : List Expression)
  | typeCast (typ : Typ) (e : Expression)
  deriving Repr

/-- `Statement`. -/
inductive Statement where
  | block (stats : List Statement)
  | ifStatement (expr : Expression) (thenBody : Statement) (elseBody : Option Statement)
  | whileStatement (cond : Expression) (body : Statement)
  | forStatement (initializer cond iter : Expression) (body : Statement)
  | variableDeclarationStatement (typ : Typ) (nam : Ident) (initializer : Option Expression)
  | expressionStatement (expr : Expression)
  | returnValueStatement (expr : Expression)
  | returnStatement
  | exitStatement
  | breakStatement
  | continueStatement
  deriving Repr

/-- `Declaration`. -/
inductive Declaration where
  | methodDeclaration (typ : Typ) (nam : Ident) (args : List (Typ × Ident)) (body : List Statement)
  | globalVariableDeclaration (typ : Typ) (nam : Ident)
  deriving Repr

/-- `CompileError`, without the rendered contexts, and what is no value of it: the exceptions at run
    time. -/
inductive CompileError where
  | redefine (message : String)
  | mapLookupError (name index : String)
  | graphLookupError (node : Nat)
  | defaultError (message : String)
  | internalError (message : String)
  | parsingError (message : String)
  | typeError (reqType actualType : Typ)
  | returnTypeError (reqType actualType : Typ)
  | needsValueError
  | lValueError
  | undefinedVarError (varName : Ident)
  | undefinedMethodError (methName : Ident)
  | methodArgsError (methName : Ident) (expected : Nat)
  | voidCastError
  | noReturnError (message : String)
  | noMainError
  /-- Haskell's `error`, or a pattern or a function that misses a case -/
  | exception (message : String)
  deriving DecidableEq, Repr

/-- `ThrowsError`. -/
abbrev ThrowsError := Except CompileError

/-- A computation succeeds when both of its parts do. -/
theorem bind_eq_ok {α β : Type} {x : ThrowsError α} {f : α → ThrowsError β} {r : β} :
    x >>= f = .ok r ↔ ∃ a, x = .ok a ∧ f a = .ok r := by
  cases x with
  | error e => constructor <;> intro h <;> simp [bind, Except.bind] at h
  | ok a => simp [bind, Except.bind]

/-- `maybeToError`. -/
def maybeToError {α : Type} (e : CompileError) : Option α → ThrowsError α
  | some x => .ok x
  | none => .error e

/-- `guardError`. -/
def guardError (e : CompileError) (b : Bool) : ThrowsError Unit := if b then .ok () else .error e

theorem guardError_ok {e : CompileError} {b : Bool} {u : Unit} : guardError e b = .ok u ↔ b = true := by
  cases b <;> simp [guardError]

theorem maybeToError_ok {α : Type} {err : CompileError} {o : Option α} {x : α} :
    maybeToError err o = .ok x ↔ o = some x := by
  cases o <;> simp [maybeToError]

/-- `orTry`: the second computation when the first one fails. -/
def orTry {α : Type} (option1 option2 : ThrowsError α) : ThrowsError α :=
  match option1 with
  | .ok x => .ok x
  | .error _ => option2

end KeyboardFirmware.Compiler
