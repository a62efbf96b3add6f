/-
  What a method means.

  The steps of `sourceStep`, with the values of expressions that `evalT` gives: statements read and
  write the variables of a program and return a value.  Nothing is said of machine code, blocks or
  a stack.  Where an expression has no value there is no step.
-/
import KeyboardFirmware.Compiler.Eval
import KeyboardFirmware.Compiler.Statements

namespace KeyboardFirmware.Compiler

/-- The type of a value. -/
def Val.typ : Val → Typ
  | .byte _ => .byte
  | .short _ => .short
  | .void => .void

/-- How a method has been left: by a return, perhaps with a value, or by an exit. -/
inductive Leaving where
  | returned (v : Val)
  | exited
  deriving DecidableEq, Repr

/-- The instruction that leaves the method. -/
def Leaving.instr : Leaving → IRInstruction
  | .returned v => .return v.typ
  | .exited => .exit

/-- A method at work. -/
structure Activation (σ : Type) where
  state : MState σ
  leaving : Option Leaving

variable {σ : Type}

/-- A method that goes on. -/
def goesOn (stats : List TStatement) (k : Cont) (s : MState σ) : Config (Activation σ) :=
  .running stats k ⟨s, none⟩

/-- How the method is left, when it is. -/
def Config.ending : Config (Activation σ) → Option Leaving
  | .running [] .done _ => some (.returned .void)
  | .running _ _ _ => none
  | .finished a => a.leaving

variable (M : Machine σ)

/-- The value of an expression as a condition. -/
def condT (e : TExpression) (s : MState σ) : Option (Bool × MState σ) := do
  let (v, s) ← evalT M e s
  let b ← v.truth
  pure (b, s)

/-- The state behind an expression whose value is not used. -/
def voidT (e : TExpression) (s : MState σ) : Option (MState σ) := (evalT M e s).map (·.2)

/-- The statement that follows a condition. -/
def branchT (cond : TExpression) (s : MState σ) (k : Bool → MState σ → Config (Activation σ)) :
    Option (Config (Activation σ)) := (condT M cond s).map fun r => k r.1 r.2

/-- The test before a round of a loop; `loop` is what is left behind the round. -/
def roundT (cond : TExpression) (body : TStatement) (loop k : Cont) (s : MState σ) :
    Option (Config (Activation σ)) :=
  branchT M cond s fun b s => if b then goesOn [body] loop s else goesOn [] k s

/-- One step of a method. -/
def meaningStep : Config (Activation σ) → Option (Config (Activation σ))
  | .finished _ => none
  | .running [] .done _ => none
  | .running [] (.seq stats k) s => some (goesOn stats k s.state)
  | .running [] (.whileLoop cond body k) s => roundT M cond body (.whileLoop cond body k) k s.state
  | .running [] (.forLoop cond iter body k) s => do
    let s ← voidT M iter s.state
    roundT M cond body (.forLoop cond iter body k) k s
  | .running (stat :: rest) k s =>
    match stat with
    | .block _ stats => some (goesOn stats (.seq rest k) s.state)
    | .ifStatement expr thenBody elseBody =>
      branchT M expr s.state fun b s =>
        goesOn (if b then [thenBody] else elseBody.toList) (.seq rest k) s
    | .whileStatement cond body =>
      roundT M cond body (.whileLoop cond body (.seq rest k)) (.seq rest k) s.state
    | .forStatement initializer cond iter body => do
      let s ← voidT M initializer s.state
      roundT M cond body (.forLoop cond iter body (.seq rest k)) (.seq rest k) s
    | .expressionStatement expr => (voidT M expr s.state).map (goesOn rest k)
    | .returnValueStatement expr =>
      (evalT M expr s.state).map fun r => .finished ⟨r.2, some (.returned r.1)⟩
    | .returnStatement => some (.finished ⟨s.state, some (.returned .void)⟩)
    | .exitStatement => some (.finished ⟨s.state, some .exited⟩)
    | .breakStatement => k.afterLoop.map fun k => goesOn [] k s.state
    | .continueStatement => k.nextRound.map fun k => goesOn [] k s.state
    | .empty => some (goesOn rest k s.state)

/-- A run of a method in which no `continue` is executed. -/
abbrev MeaningSteps : Nat → Config (Activation σ) → Config (Activation σ) → Prop :=
  Lib.Steps (meaningStep M) fun c => ¬ c.AtContinue

end KeyboardFirmware.Compiler
