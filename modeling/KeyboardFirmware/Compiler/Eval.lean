/-
  The meaning of a typed expression, with the operators of the virtual machine.

  `evalT` is the reference the folder and the code generator are compared with: operands from left
  to right, `&&` and `||` with short circuit, every write, call and system call on record in
  `MState.trace`.  What variables, methods and system calls do is a parameter (`Machine`), so that a
  statement about all machines is one about every program around the expression.  A division by
  zero and a shift count outside the width have no value.
-/
import KeyboardFirmware.Compiler.TypedAST
import KeyboardFirmware.Vm.Operators

namespace KeyboardFirmware.Compiler

open Vm

/-- A value of the language. -/
inductive Val where
  | byte (v : VByte)
  | short (v : VShort)
  | void
  deriving DecidableEq, Repr

/-- The truth of a value in a boolean position: the VM tests one byte. -/
def Val.truth : Val → Option Bool
  | .byte v => some (v != 0)
  | _ => none

/-- A variable. -/
inductive Var where
  | global (i : VariableID)
  | local (i : VariableID)
  deriving DecidableEq, Repr

/-- A side effect. -/
inductive Effect where
  | write (x : Var) (v : Val)
  | call (i : MethodID) (args : List Val)
  | syscall (op : SyscallOp) (args : List Val)
  deriving DecidableEq, Repr

/-- What the expression runs in: variables, methods and system calls over a state `σ`. -/
structure Machine (σ : Type) where
  load : σ → Var → Typ → Val
  store : σ → Var → Val → σ
  call : σ → MethodID → List Val → Option (Val × σ)
  syscall : σ → SyscallOp → List Val → Option (Val × σ)

/-- A state with the side effects so far, the latest first. -/
structure MState (σ : Type) where
  env : σ
  trace : List Effect

variable {σ : Type} (M : Machine σ)

/-- Write a variable. -/
def MState.write (s : MState σ) (x : Var) (v : Val) : MState σ :=
  ⟨M.store s.env x v, .write x v :: s.trace⟩

/-- Call a method. -/
def MState.call (s : MState σ) (i : MethodID) (args : List Val) : Option (Val × MState σ) :=
  (M.call s.env i args).map fun r => (r.1, ⟨r.2, .call i args :: s.trace⟩)

/-- Call the system. -/
def MState.syscall (s : MState σ) (op : SyscallOp) (args : List Val) : Option (Val × MState σ) :=
  (M.syscall s.env op args).map fun r => (r.1, ⟨r.2, .syscall op args :: s.trace⟩)

/-! ## Operators -/

/-- An arithmetic operator of the VM on operands of one width. -/
def vmArith {n : Nat} (op : BinaryOp) (a b : BitVec n) : Option (BitVec n) :=
  match op with
  | .add => some (a + b)
  | .subtract => some (a - b)
  | .multiply => some (a * b)
  | .divide => if b = 0 then none else some (vmDivide a b)
  | .mod => if b = 0 then none else some (vmMod a b)
  | .and => some (a &&& b)
  | .or => some (a ||| b)
  | .xor => some (a ^^^ b)
  | .lshift => if 0 ≤ b.toInt ∧ b.toInt < n then some (vmLshift a b) else none
  | .rshift => if 0 ≤ b.toInt ∧ b.toInt < n then some (vmRshift a b) else none
  | _ => none

/-- A relational operator of the VM: compare, then test. -/
def vmCompare {n : Nat} (op : BinaryOp) (a b : BitVec n) : Option Bool :=
  if op.isComparison then some (vmIfCheck (conditionFor op) (vmCmp a b)) else none

/-- `if b then 1 else 0`. -/
def Val.ofBool (b : Bool) : Val := .byte (if b then 1 else 0)

/-- A binary operator other than `&&` and `||` on two values. -/
def binaryVal (op : BinaryOp) : Val → Val → Option Val
  | .byte a, .byte b => ((vmArith op a b).map .byte).or ((vmCompare op a b).map .ofBool)
  | .short a, .short b => ((vmArith op a b).map .short).or ((vmCompare op a b).map .ofBool)
  | _, _ => none

/-- A prefix operator on a value. -/
def prefixVal : PrefixOp → Val → Option Val
  | .not, .byte v => some (.ofBool (v == 0))
  | .complement, .byte v => some (.byte (~~~v))
  | .complement, .short v => some (.short (~~~v))
  | .minus, .byte v => some (.byte (0 - v))
  | .minus, .short v => some (.short (0 - v))
  | _, _ => none

/-- A type conversion of a value. -/
def convertVal : Typ → Val → Option Val
  | .byte, .short v => some (.byte (vmS2B v))
  | .short, .byte v => some (.short (vmB2S v))
  | .void, _ => some .void
  | _, _ => none

/-- A boolean conversion: a short is reduced to the union of its two bytes. -/
def booleanVal : Val → Option Val
  | .byte v => some (.byte v)
  | .short v => some (.byte (Vm.lowByte v ||| Vm.highByte v))
  | .void => none

/-- One more or one less. -/
def stepVal (up : Bool) : Val → Option Val
  | .byte v => some (.byte (if up then v + 1 else v - 1))
  | .short v => some (.short (if up then v + 1 else v - 1))
  | .void => none

/-- The variable an increment or decrement works on. -/
def loadedVar : TExpression → Option (Typ × Var)
  | .globalLoad t i => some (t, .global i)
  | .localLoad t i => some (t, .local i)
  | _ => none

/-- An increment or decrement: the old value, the new one, and the state after the write. -/
def evalStep (up : Bool) (e : TExpression) (s : MState σ) : Option (Val × Val × MState σ) := do
  let (t, x) ← loadedVar e
  let v ← pure (M.load s.env x t)
  let v' ← stepVal up v
  pure (v, v', s.write M x v')

/-! ## Expressions -/

mutual

/-- The value of an expression and the state it leaves. -/
def evalT : TExpression → MState σ → Option (Val × MState σ)
  | .globalStore _ i e, s => do
    let (v, s) ← evalT e s
    pure (v, s.write M (.global i) v)
  | .localStore _ i e, s => do
    let (v, s) ← evalT e s
    pure (v, s.write M (.local i) v)
  | .globalLoad t i, s => some (M.load s.env (.global i) t, s)
  | .localLoad t i, s => some (M.load s.env (.local i) t, s)
  | .prefixExpression _ .preincrement e, s => do
    let (_, v', s) ← evalStep M true e s
    pure (v', s)
  | .prefixExpression _ .predecrement e, s => do
    let (_, v', s) ← evalStep M false e s
    pure (v', s)
  | .prefixExpression _ op e, s => do
    let (v, s) ← evalT e s
    let v' ← prefixVal op v
    pure (v', s)
  | .postfixExpression _ e op, s => do
    let (v, _, s) ← evalStep M (op = .postincrement) e s
    pure (v, s)
  | .binaryExpression _ l .conj r, s => do
    let (v, s) ← evalT l s
    let b ← v.truth
    if b then
      let (v, s) ← evalT r s
      let b ← v.truth
      pure (.ofBool b, s)
    else pure (.ofBool false, s)
  | .binaryExpression _ l .disj r, s => do
    let (v, s) ← evalT l s
    let b ← v.truth
    if b then pure (.ofBool true, s)
    else
      let (v, s) ← evalT r s
      let b ← v.truth
      pure (.ofBool b, s)
  | .binaryExpression _ l op r, s => do
    let (a, s) ← evalT l s
    let (b, s) ← evalT r s
    let v ← binaryVal op a b
    pure (v, s)
  | .shortLiteral v, s => some (.short v, s)
  | .byteLiteral v, s => some (.byte v, s)
  | .methodCall _ i args, s => do
    let (vs, s) ← evalArgs args s
    s.call M i vs
  | .syscall _ op args, s => do
    let (vs, s) ← evalArgs args s
    s.syscall M op vs
  | .typeConversion t e, s => do
    let (v, s) ← evalT e s
    let v' ← convertVal t v
    pure (v', s)
  | .booleanConversion e, s => do
    let (v, s) ← evalT e s
    let v' ← booleanVal v
    pure (v', s)

/-- Arguments, from left to right. -/
def evalArgs : List TExpression → MState σ → Option (List Val × MState σ)
  | [], s => some ([], s)
  | e :: es, s => do
    let (v, s) ← evalT e s
    let (vs, s) ← evalArgs es s
    pure (v :: vs, s)

end

variable {σ : Type} {M : Machine σ} {s s' : MState σ} {v : Val} {t : Typ} {e : TExpression}

theorem evalT_typeConversion :
    evalT M (.typeConversion t e) s = some (v, s') ↔
      ∃ x, evalT M e s = some (x, s') ∧ convertVal t x = some v := by
  simp [evalT, Option.bind_eq_some_iff]

theorem evalT_booleanConversion :
    evalT M (.booleanConversion e) s = some (v, s') ↔
      ∃ x, evalT M e s = some (x, s') ∧ booleanVal x = some v := by
  simp [evalT, Option.bind_eq_some_iff]

end KeyboardFirmware.Compiler
