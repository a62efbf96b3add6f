/-
  What statements mean.

  The reference for the code generator: a statement is taken apart step by step, with the work that is
  left behind it in a `Cont`.  The condition of a loop is evaluated before every round, the one after a
  `continue` included; `continue` in a `for` loop goes on with its step; `break` leaves the innermost
  loop.  The effects of expressions are those of `exprSem`, whatever the machine.
-/
import KeyboardFirmware.Compiler.GraphRun

namespace KeyboardFirmware.Compiler

open Lib

/-- What is left to do behind a list of statements. -/
inductive Cont where
  | done
  | seq (stats : List TStatement) (k : Cont)
  | whileLoop (cond : TExpression) (body : TStatement) (k : Cont)
  | forLoop (cond iter : TExpression) (body : TStatement) (k : Cont)

/-- Behind the innermost loop. -/
def Cont.afterLoop : Cont → Option Cont
  | .done => none
  | .seq _ k => k.afterLoop
  | .whileLoop _ _ k => some k
  | .forLoop _ _ _ k => some k

/-- At the end of the body of the innermost loop. -/
def Cont.nextRound : Cont → Option Cont
  | .done => none
  | .seq _ k => k.nextRound
  | .whileLoop cond body k => some (.whileLoop cond body k)
  | .forLoop cond iter body k => some (.forLoop cond iter body k)

/-- A method in the middle of its body, or after a return or an exit. -/
inductive Config (σ : Type) where
  | running (stats : List TStatement) (k : Cont) (s : σ)
  | finished (s : σ)

namespace Config

variable {σ : Type}

def state : Config σ → σ
  | .running _ _ s => s
  | .finished s => s

/-- The next statement is a `continue`. -/
def AtContinue : Config σ → Prop
  | .running (.continueStatement :: _) _ _ => True
  | _ => False

/-- The method has returned or exited, or is at the end of its body. -/
def Final : Config σ → Prop
  | .running [] .done _ => True
  | .running _ _ _ => False
  | .finished _ => True

end Config

variable {σ : Type} (M : BlockMachine σ)

/-- The test before a round of a `while` loop. -/
def whileRound (cond : TExpression) (body : TStatement) (k : Cont) (s : σ) : Config σ :=
  let (b, s) := (exprSem M cond).cond s
  if b then .running [body] (.whileLoop cond body k) s else .running [] k s

/-- The test before a round of a `for` loop. -/
def forRound (cond iter : TExpression) (body : TStatement) (k : Cont) (s : σ) : Config σ :=
  let (b, s) := (exprSem M cond).cond s
  if b then .running [body] (.forLoop cond iter body k) s else .running [] k s

/-- One step of a method. -/
def sourceStep : Config σ → Option (Config σ)
  | .finished _ => none
  | .running [] .done _ => none
  | .running [] (.seq stats k) s => some (.running stats k s)
  | .running [] (.whileLoop cond body k) s => some (whileRound M cond body k s)
  | .running [] (.forLoop cond iter body k) s =>
    some (forRound M cond iter body k ((exprSem M iter).void s))
  | .running (stat :: rest) k s =>
    match stat with
    | .block _ stats => some (.running stats (.seq rest k) s)
    | .ifStatement expr thenBody elseBody =>
      let (b, s) := (exprSem M expr).cond s
      if b then some (.running [thenBody] (.seq rest k) s)
      else some (.running elseBody.toList (.seq rest k) s)
    | .whileStatement cond body => some (whileRound M cond body (.seq rest k) s)
    | .forStatement initializer cond iter body =>
      some (forRound M cond iter body (.seq rest k) ((exprSem M initializer).void s))
    | .expressionStatement expr => some (.running rest k ((exprSem M expr).void s))
    | .returnValueStatement expr =>
      some (.finished (M.exec (.return (typeOf expr)) ((exprSem M expr).value s)))
    | .returnStatement => some (.finished (M.exec (.return .void) s))
    | .exitStatement => some (.finished (M.exec .exit s))
    | .breakStatement => k.afterLoop.map fun k => .running [] k s
    | .continueStatement => k.nextRound.map fun k => .running [] k s
    | .empty => some (.running rest k s)

/-- A method from its first statement on. -/
def TMethod.start (m : TMethod) (s : σ) : Config σ := .running m.body .done s

/-- A run in which no `continue` is executed. -/
abbrev PlainSteps : Nat → Config σ → Config σ → Prop := Steps (sourceStep M) fun c => ¬ c.AtContinue

end KeyboardFirmware.Compiler
