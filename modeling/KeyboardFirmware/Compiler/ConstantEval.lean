/-
  The constant folder of `TypedAST.hs` (`constantEval`).

  Literals of the two widths are folded by the same rules, so the rules are stated once over the
  width.  Haskell's `div` and `mod` round towards minus infinity.  A quotient that GHC refuses (by
  zero, or the most negative number by -1) is an exception only when the literal is looked at;
  `divRaises` says which these are, and the value the folder gives there means nothing.
-/
import KeyboardFirmware.Compiler.TypedAST

namespace KeyboardFirmware.Compiler

/-- `div` on fixed-width integers. -/
def hsDiv {n : Nat} (l r : BitVec n) : BitVec n := BitVec.ofInt n (Int.fdiv l.toInt r.toInt)

/-- `mod` on fixed-width integers. -/
def hsMod {n : Nat} (l r : BitVec n) : BitVec n := BitVec.ofInt n (Int.fmod l.toInt r.toInt)

/-- The operands on which GHC's `div` and `mod` raise an exception. -/
def divRaises {n : Nat} (op : BinaryOp) (l r : BitVec n) : Bool :=
  match op with
  | .divide => r = 0 ∨ (l = BitVec.intMin n ∧ r = -1)
  | .mod => r = 0
  | _ => false

/-- `evalBinary` on two literals of one width: the arithmetic operators. -/
def evalArith {n : Nat} (l : BitVec n) (op : BinaryOp) (r : BitVec n) : Option (BitVec n) :=
  match op with
  | .add => some (l + r)
  | .subtract => some (l - r)
  | .multiply => some (l * r)
  | .divide => some (hsDiv l r)
  | .mod => some (hsMod l r)
  | .and => some (l &&& r)
  | .or => some (l ||| r)
  | .xor => some (l ^^^ r)
  | .lshift => some (l <<< r.toNat)
  | .rshift => some (l.sshiftRight r.toNat)
  | _ => none

/-- `evalBinary` on two literals of one width: the relational operators. -/
def evalComparison {n : Nat} (l : BitVec n) (op : BinaryOp) (r : BitVec n) : Option Bool :=
  match op with
  | .gt => some (r.slt l)
  | .ge => some (r.sle l)
  | .lt => some (l.slt r)
  | .le => some (l.sle r)
  | .eq => some (l == r)
  | .ne => some (l != r)
  | _ => none

/-- `if b then 1 else 0`. -/
def boolByte (b : Bool) : VByte := if b then 1 else 0

/-- `evalPrefix`. -/
def evalPrefix : PrefixOp → TExpression → Option TExpression
  | .not, .byteLiteral l => some (.byteLiteral (boolByte (l == 0)))
  | .complement, .shortLiteral l => some (.shortLiteral (~~~l))
  | .complement, .byteLiteral l => some (.byteLiteral (~~~l))
  | .minus, .shortLiteral l => some (.shortLiteral (-l))
  | .minus, .byteLiteral l => some (.byteLiteral (-l))
  | _, _ => none

/-- `evalBinary`. -/
def evalBinary : TExpression → BinaryOp → TExpression → Option TExpression
  | .byteLiteral l, .disj, .byteLiteral r => some (.byteLiteral (boolByte (l != 0 || r != 0)))
  | .byteLiteral l, .conj, .byteLiteral r => some (.byteLiteral (boolByte (l != 0 && r != 0)))
  | .byteLiteral l, .disj, _ => if l ≠ 0 then some (.byteLiteral 1) else none
  | .byteLiteral l, .conj, _ => if l = 0 then some (.byteLiteral 0) else none
  | .byteLiteral l, op, .byteLiteral r =>
    ((evalArith l op r).map .byteLiteral).or
      ((evalComparison l op r).map fun b => .byteLiteral (boolByte b))
  | .shortLiteral l, op, .shortLiteral r =>
    ((evalArith l op r).map .shortLiteral).or
      ((evalComparison l op r).map fun b => .byteLiteral (boolByte b))
  | _, _, _ => none

/-- The folding of a boolean conversion, once its argument is folded. -/
def evalBoolean : TExpression → TExpression
  | .shortLiteral l => .byteLiteral (boolByte (l != 0))
  | .byteLiteral l => .byteLiteral (boolByte (l != 0))
  | e => .booleanConversion e

/-- The folding of a type conversion, once its argument is folded. -/
def evalConversion : Typ → TExpression → TExpression
  | .byte, .shortLiteral l => .byteLiteral (l.signExtend 8)
  | .short, .byteLiteral l => .shortLiteral (l.signExtend 16)
  | t, e => .typeConversion t e

mutual

/-- `constantEval`. -/
def constantEval : TExpression → TExpression
  | .methodCall t i args => .methodCall t i (constantEvalArgs args)
  | .syscall t op args => .syscall t op (constantEvalArgs args)
  | .globalStore t i e => .globalStore t i (constantEval e)
  | .localStore t i e => .localStore t i (constantEval e)
  | .booleanConversion e => evalBoolean (constantEval e)
  | .typeConversion t e => evalConversion t (constantEval e)
  | .prefixExpression t op e =>
    (evalPrefix op (constantEval e)).getD (.prefixExpression t op (constantEval e))
  | .binaryExpression t la op ra =>
    (evalBinary (constantEval la) op (constantEval ra)).getD
      (.binaryExpression t (constantEval la) op (constantEval ra))
  | .globalLoad t i => .globalLoad t i
  | .localLoad t i => .localLoad t i
  | .postfixExpression t e op => .postfixExpression t e op
  | .shortLiteral val => .shortLiteral val
  | .byteLiteral val => .byteLiteral val

/-- `map constantEval`. -/
def constantEvalArgs : List TExpression → List TExpression
  | [] => []
  | e :: es => constantEval e :: constantEvalArgs es

end

/-! ## Folding a program -/

mutual

/-- `exMap''`: apply a function to every expression of a statement. -/
def exMapStatement (f : TExpression → TExpression) : TStatement → TStatement
  | .block vs stats => .block vs (exMapStatements f stats)
  | .ifStatement ex tb fb => .ifStatement (f ex) (exMapStatement f tb) (exMapElse f fb)
  | .whileStatement ex body => .whileStatement (f ex) (exMapStatement f body)
  | .forStatement e1 e2 e3 body => .forStatement (f e1) (f e2) (f e3) (exMapStatement f body)
  | .expressionStatement ex => .expressionStatement (f ex)
  | .returnValueStatement ex => .returnValueStatement (f ex)
  | .returnStatement => .returnStatement
  | .exitStatement => .exitStatement
  | .breakStatement => .breakStatement
  | .continueStatement => .continueStatement
  | .empty => .empty

/-- `map exMap''`. -/
def exMapStatements (f : TExpression → TExpression) : List TStatement → List TStatement
  | [] => []
  | s :: ss => exMapStatement f s :: exMapStatements f ss

/-- `exMap''` on an optional else branch. -/
def exMapElse (f : TExpression → TExpression) : Option TStatement → Option TStatement
  | none => none
  | some s => some (exMapStatement f s)

end

/-- `constantEvalProgram`. -/
def constantEvalProgram (p : TProgram) : TProgram :=
  { p with methods := p.methods.map fun m => { m with body := exMapStatements constantEval m.body } }

/-- `optTProgram`. -/
def optTProgram (p : TProgram) : ThrowsError TProgram := .ok (constantEvalProgram p)

end KeyboardFirmware.Compiler
