/-
  Methods on the operand machine.

  A step of a method in the reference (`meaningStep`) is one of `sourceStep` over the operand machine
  (`meaningStep_simulated`), and this one is a run of the graph.  So the graph of a method goes through
  every state of a run of its statements, and where the run ends it has been left, or stands before the
  instruction that leaves it (`Frame.graph_runs`).
-/
import KeyboardFirmware.Vm.Expressions
import KeyboardFirmware.Compiler.Marked
import KeyboardFirmware.Compiler.Positions

namespace KeyboardFirmware.Vm

open Compiler Lib

/-! ## Statements -/

/-- The expressions of what is left to do. -/
def ContParts (C V W : TExpression → Prop) : Cont → Prop
  | .done => True
  | .seq stats k => StmtsParts C V W stats ∧ ContParts C V W k
  | .whileLoop cond body k => C cond ∧ StmtParts C V W body ∧ ContParts C V W k
  | .forLoop cond iter body k => C cond ∧ V iter ∧ StmtParts C V W body ∧ ContParts C V W k

theorem ContParts.afterLoop {C V W : TExpression → Prop} {k k' : Cont} (h : ContParts C V W k)
    (hk : k.afterLoop = some k') : ContParts C V W k' := by
  induction k with
  | done => cases hk
  | seq stats k ih => exact ih h.2 hk
  | whileLoop cond body k =>
    obtain rfl := Option.some.inj hk
    exact h.2.2
  | forLoop cond iter body k =>
    obtain rfl := Option.some.inj hk
    exact h.2.2.2

theorem ContParts.nextRound {C V W : TExpression → Prop} {k k' : Cont} (h : ContParts C V W k)
    (hk : k.nextRound = some k') : ContParts C V W k' := by
  induction k with
  | done => cases hk
  | seq stats k ih => exact ih h.2 hk
  | whileLoop cond body k =>
    obtain rfl := Option.some.inj hk
    exact h
  | forLoop cond iter body k =>
    obtain rfl := Option.some.inj hk
    exact h

namespace Frame

variable (F : Frame)

/-- A condition that the code generator gets right, with room for its code. -/
def Condition (e : TExpression) : Prop := F.Plain .byte e ∧ F.Room (F.need e)

/-- Any other expression. -/
def Value (e : TExpression) : Prop := ∃ t, F.Plain t e ∧ F.Room (F.need e)

/-- A body all of whose expressions the code generator gets right. -/
abbrev PlainBody (stats : List TStatement) : Prop := StmtsParts F.Condition F.Value F.Value stats

def PlainConfig {σ : Type} : Compiler.Config σ → Prop
  | .running stats k _ => F.PlainBody stats ∧ ContParts F.Condition F.Value F.Value k
  | .finished _ => True

end Frame

/-- What the instruction that leaves the method finds on the stack. -/
def leavingBytes : Leaving → List VByte
  | .returned v => valBytes v
  | .exited => []

namespace Frame

variable {F : Frame}

/-- The two levels stand at the same statement; the machine shows what the reference has. -/
def Stands (F : Frame) : Compiler.Config (Activation Env) → Compiler.Config (Option Operands) → Prop
  | .running stats k a, .running stats' k' w =>
    stats' = stats ∧ k' = k ∧ F.Shows a.state.env [] w
  | .finished a, .finished w => ∃ l, a.leaving = some l ∧ F.Room (leavingBytes l).length ∧
      F.Typed a.state.env ∧ w = some ⟨a.state.env, leavingBytes l, some l.instr⟩
  | _, _ => False

/-- A condition is tested. -/
theorem branch_simulated {e : TExpression} (he : F.Condition e) {s : MState Env} {w : Option Operands}
    (hw : F.Shows s.env [] w) {k : Bool → MState Env → Compiler.Config (Activation Env)}
    {c : Compiler.Config (Activation Env)} (hstep : branchT F.machine e s k = some c) :
    ∃ b s', c = k b s' ∧ ((exprSem F.blocks e).cond w).1 = b ∧
      F.Shows s'.env [] ((exprSem F.blocks e).cond w).2 := by
  obtain ⟨⟨b, s'⟩, hcond, rfl⟩ := Option.map_eq_some_iff.mp hstep
  simp only [condT, Option.bind_eq_bind, Option.bind_eq_some_iff, Prod.exists] at hcond
  obtain ⟨v, s1, hv, d, hd, hres⟩ := hcond
  obtain ⟨rfl, rfl⟩ := Prod.mk.inj (Option.some.inj hres)
  exact ⟨d, s1, rfl, (F.agrees he.1).cond hv hw (Room.mono he.2 (by simp)) d hd⟩

/-- An expression is evaluated for its effects. -/
theorem void_simulated {e : TExpression} (he : F.Value e) {s s' : MState Env} {w : Option Operands}
    (hw : F.Shows s.env [] w) (hstep : voidT F.machine e s = some s') :
    F.Shows s'.env [] ((exprSem F.blocks e).void w) := by
  obtain ⟨t, hplain, hroom⟩ := he
  obtain ⟨⟨v, s1⟩, hv, rfl⟩ := Option.map_eq_some_iff.mp hstep
  exact (F.agrees hplain).void hv hw (Room.mono hroom (by simp))

/-- The test before a round of a loop. -/
theorem round_simulated {cond : TExpression} {body : TStatement} {loop k : Cont} {s : MState Env}
    {c : Compiler.Config (Activation Env)} (hstep : roundT F.machine cond body loop k s = some c)
    {w : Option Operands} (hw : F.Shows s.env [] w) (hcond : F.Condition cond) (hbody : F.PlainBody [body])
    (hloop : ContParts F.Condition F.Value F.Value loop)
    (hk : ContParts F.Condition F.Value F.Value k) :
    F.PlainConfig c ∧ F.Stands c (if ((exprSem F.blocks cond).cond w).1
      then .running [body] loop ((exprSem F.blocks cond).cond w).2
      else .running [] k ((exprSem F.blocks cond).cond w).2) := by
  obtain ⟨b, s', rfl, hb, hshows⟩ := branch_simulated hcond hw hstep
  rw [hb]
  cases b with
  | true => exact ⟨⟨hbody, hloop⟩, rfl, rfl, hshows⟩
  | false => exact ⟨⟨trivial, hk⟩, rfl, rfl, hshows⟩

/-- **One step** of the reference is one over the machine of the blocks. -/
theorem meaningStep_simulated {c c' : Compiler.Config (Activation Env)}
    {d : Compiler.Config (Option Operands)} (hparts : F.PlainConfig c) (hstands : F.Stands c d) (hstep : meaningStep F.machine c = some c') :
    ∃ d', sourceStep F.blocks d = some d' ∧ F.Stands c' d' ∧ F.PlainConfig c' := by
  cases c with
  | finished a => cases hstep
  | running stats k a =>
    cases d with
    | finished w => exact hstands.elim
    | running stats' k' w =>
      obtain ⟨rfl, rfl, hw⟩ := hstands
      obtain ⟨hstats, hk⟩ := hparts
      cases stats' with
      | nil =>
        cases k' with
        | done => cases hstep
        | seq stats k =>
          obtain rfl := Option.some.inj hstep
          exact ⟨_, rfl, ⟨rfl, rfl, hw⟩, hk⟩
        | whileLoop cond body k =>
          obtain ⟨hcond, hbody, hrest⟩ := hk
          have hround : roundT F.machine cond body (.whileLoop cond body k) k a.state = some c' := hstep
          obtain ⟨hparts', hstands'⟩ :=
            round_simulated hround hw hcond ⟨hbody, trivial⟩ ⟨hcond, hbody, hrest⟩ hrest
          exact ⟨_, rfl, hstands', hparts'⟩
        | forLoop cond iter body k =>
          obtain ⟨hcond, hiter, hbody, hrest⟩ := hk
          obtain ⟨s1, hvoid, hstep⟩ := Option.bind_eq_some_iff.mp hstep
          have hw1 := void_simulated hiter hw hvoid
          have hround : roundT F.machine cond body (.forLoop cond iter body k) k s1 = some c' := hstep
          obtain ⟨hparts', hstands'⟩ :=
            round_simulated hround hw1 hcond ⟨hbody, trivial⟩ ⟨hcond, hiter, hbody, hrest⟩ hrest
          exact ⟨_, rfl, hstands', hparts'⟩
      | cons stat rest =>
        obtain ⟨hstat, hrest⟩ := hstats
        cases stat with
        | block scope stats =>
          obtain rfl := Option.some.inj hstep
          exact ⟨_, rfl, ⟨rfl, rfl, hw⟩, hstat, hrest, hk⟩
        | ifStatement expr thenBody elseBody =>
          obtain ⟨hcond, hthen, helse⟩ := hstat
          have hbranch : branchT F.machine expr a.state (fun b s =>
              goesOn (if b then [thenBody] else elseBody.toList) (.seq rest k') s) = some c' := hstep
          obtain ⟨b, s', rfl, hb, hshows⟩ := branch_simulated hcond hw hbranch
          have hstep' : sourceStep F.blocks (.running (.ifStatement expr thenBody elseBody :: rest) k' w) =
              if ((exprSem F.blocks expr).cond w).1
              then some (.running [thenBody] (.seq rest k') ((exprSem F.blocks expr).cond w).2)
              else some (.running elseBody.toList (.seq rest k') ((exprSem F.blocks expr).cond w).2) := rfl
          rw [hstep', hb]
          cases b with
          | true => exact ⟨_, rfl, ⟨rfl, rfl, hshows⟩, ⟨hthen, trivial⟩, hrest, hk⟩
          | false =>
            refine ⟨_, rfl, ⟨rfl, rfl, hshows⟩, ?_, hrest, hk⟩
            cases elseBody with
            | none => trivial
            | some s => exact ⟨helse, trivial⟩
        | whileStatement cond body =>
          obtain ⟨hcond, hbody⟩ := hstat
          have hround : roundT F.machine cond body (.whileLoop cond body (.seq rest k')) (.seq rest k')
              a.state = some c' := hstep
          obtain ⟨hparts', hstands'⟩ := round_simulated hround hw hcond ⟨hbody, trivial⟩
            ⟨hcond, hbody, hrest, hk⟩ ⟨hrest, hk⟩
          exact ⟨_, rfl, hstands', hparts'⟩
        | forStatement initializer cond iter body =>
          obtain ⟨hinit, hcond, hiter, hbody⟩ := hstat
          obtain ⟨s1, hvoid, hstep⟩ := Option.bind_eq_some_iff.mp hstep
          have hw1 := void_simulated hinit hw hvoid
          have hround : roundT F.machine cond body (.forLoop cond iter body (.seq rest k'))
              (.seq rest k') s1 = some c' := hstep
          obtain ⟨hparts', hstands'⟩ := round_simulated hround hw1 hcond ⟨hbody, trivial⟩
            ⟨hcond, hiter, hbody, hrest, hk⟩ ⟨hrest, hk⟩
          exact ⟨_, rfl, hstands', hparts'⟩
        | expressionStatement expr =>
          obtain ⟨s1, hvoid, rfl⟩ := Option.map_eq_some_iff.mp hstep
          exact ⟨_, rfl, ⟨rfl, rfl, void_simulated hstat hw hvoid⟩, hrest, hk⟩
        | returnValueStatement expr =>
          obtain ⟨t, hplain, hroom⟩ := hstat
          obtain ⟨⟨v, s1⟩, hv, rfl⟩ := Option.map_eq_some_iff.mp hstep
          have hroom' : F.Room (([] : List VByte).length + F.need expr) := Room.mono hroom (by simp)
          obtain ⟨rfl, hshows⟩ := (F.agrees hplain).value hv hw hroom'
          refine ⟨_, rfl, ⟨.returned v, rfl, ?_⟩, trivial⟩
          have hfits : F.Room ([] ++ valBytes v).length := Room.append hroom' (by
            rw [length_valBytes]
            exact hplain.le_exprRoom)
          refine ⟨hfits, hshows.typed, ?_⟩
          rw [hplain.typeOf]
          exact hshows.leave hfits rfl
        | returnStatement =>
          obtain rfl := Option.some.inj hstep
          refine ⟨_, rfl, ⟨.returned .void, rfl, ?_⟩, trivial⟩
          exact ⟨Nat.zero_le _, hw.typed, hw.leave (Nat.zero_le _) rfl⟩
        | exitStatement =>
          obtain rfl := Option.some.inj hstep
          refine ⟨_, rfl, ⟨.exited, rfl, ?_⟩, trivial⟩
          exact ⟨Nat.zero_le _, hw.typed, hw.leave (Nat.zero_le _) rfl⟩
        | breakStatement =>
          obtain ⟨k1, hafter, rfl⟩ := Option.map_eq_some_iff.mp hstep
          refine ⟨.running [] k1 w, ?_, ⟨rfl, rfl, hw⟩, trivial, hk.afterLoop hafter⟩
          show Option.map _ k'.afterLoop = _
          rw [hafter]
          rfl
        | continueStatement =>
          obtain ⟨k1, hnext, rfl⟩ := Option.map_eq_some_iff.mp hstep
          refine ⟨.running [] k1 w, ?_, ⟨rfl, rfl, hw⟩, trivial, hk.nextRound hnext⟩
          show Option.map _ k'.nextRound = _
          rw [hnext]
          rfl
        | empty =>
          obtain rfl := Option.some.inj hstep
          exact ⟨_, rfl, ⟨rfl, rfl, hw⟩, hrest, hk⟩

/-! ## Runs -/

theorem Stands.atContinue {c : Compiler.Config (Activation Env)}
    {d : Compiler.Config (Option Operands)} (h : F.Stands c d) : d.AtContinue ↔ c.AtContinue := by
  cases c with
  | running stats k a =>
    cases d with
    | running stats' k' w =>
      obtain ⟨rfl, -, -⟩ := h
      rcases stats' with _ | ⟨stat, rest⟩
      · rfl
      · cases stat <;> rfl
    | finished w => exact h.elim
  | finished a =>
    cases d with
    | running stats' k' w => exact h.elim
    | finished w => rfl

/-- A run of the reference is one over the operand machine. -/
theorem meaningSteps_simulated {n : Nat} {c c' : Compiler.Config (Activation Env)}
    (hrun : MeaningSteps F.machine n c c') {d : Compiler.Config (Option Operands)} (hparts : F.PlainConfig c)
    (hstands : F.Stands c d) : ∃ d', PlainSteps F.blocks n d d' ∧ F.Stands c' d' := by
  induction hrun generalizing d with
  | refl => exact ⟨d, .refl d, hstands⟩
  | head hno hstep _ ih =>
    obtain ⟨d1, hd, hstands1, hparts1⟩ := meaningStep_simulated hparts hstands hstep
    obtain ⟨d', hrest, hstands'⟩ := ih hparts1 hstands1
    exact ⟨d', .head (fun hcontinue => hno (hstands.atContinue.mp hcontinue)) hd hrest, hstands'⟩

/-! ## Behind a return -/

theorem act_leave {i : IRInstruction} {o : Operands} (hi : isLeave i = true) :
    F.act i o = some { o with left := some i } := by
  cases i <;> cases hi <;> rfl

/-- One comes to a place behind a return only through this. -/
theorem graphSteps_behind {G : IRGraph IRInstruction} {k : Nat} {x y : Pos × Option Operands}
    (hrun : GraphSteps F.blocks G k x y) (hx : InGraph G x.1) (hbehind : Compiler.Behind G y.1)
    (hinv : Compiler.Behind G x.1 → ∀ o, x.2 = some o → o.left ≠ none) {o : Operands} (ho : y.2 = some o) :
    o.left ≠ none := by
  induction hrun with
  | refl => exact hinv hbehind o ho
  | @head _ x x1 y _ hstep _ ih =>
    rcases graphStep_cases hstep hx with ⟨i, hin, hexec⟩ | ⟨es, hends, hjump⟩
    · refine ih (hin.inside hx) hbehind ?_ ho
      rintro ⟨i', q, hin', hleave⟩ o1 ho1
      obtain rfl := instrsAt_unique hin hin'
      rw [hexec] at ho1
      obtain ⟨o0, -, hexec⟩ := Option.bind_eq_some_iff.mp ho1
      rw [exec_eq (exec_open hexec), act_leave hleave] at hexec
      obtain rfl := Option.some.inj hexec
      simp
    · refine ih (hends.inside hx hjump) hbehind ?_ ho
      rintro ⟨i', q, ⟨heq, -⟩, -⟩
      have hzero := jumpFrom_zero hjump
      rw [heq] at hzero
      cases hzero

/-! ## The graph of a method -/

/-- A method in the reference, as the operand machine has it. -/
def operands (c : Compiler.Config (Activation Env)) : Operands :=
  ⟨c.state.state.env, c.ending.elim [] leavingBytes, c.ending.map Leaving.instr⟩

/-- **The graph of a method** goes through every state of a run of its statements. -/
theorem graph_runs {m : TMethod} {irm : IRMethod} (hm : buildIRMethod m = .ok irm)
    (hbody : F.PlainBody m.body) {s : MState Env} (hs : F.Typed s.env) {n : Nat}
    {c : Compiler.Config (Activation Env)} (hrun : MeaningSteps F.machine n (m.start ⟨s, none⟩) c) :
    F.Room (operands c).stack.length ∧ ∃ k p, GraphSteps F.blocks irm.graph k
      ((0, 0), some ⟨s.env, [], none⟩) (p, some (operands c)) := by
  obtain ⟨d, hd, hstands⟩ := meaningSteps_simulated hrun (d := m.start (some ⟨s.env, [], none⟩))
    ⟨hbody, trivial⟩ ⟨rfl, rfl, rfl, hs⟩
  obtain ⟨k, p, hk, hfinal⟩ := graph_reaches hm F.blocks hd
  cases c with
  | finished a =>
    cases d with
    | running stats k w => exact hstands.elim
    | finished w =>
      obtain ⟨l, hl, hfits, -, rfl⟩ := hstands
      have hoperands : operands (.finished a) = ⟨a.state.env, leavingBytes l, some l.instr⟩ := by
        simp only [operands, Compiler.Config.ending, hl]
        rfl
      rw [hoperands]
      exact ⟨hfits, k, p, hk⟩
  | running stats cont a =>
    cases d with
    | finished w => exact hstands.elim
    | running stats' cont' w =>
      obtain ⟨rfl, rfl, rfl, -⟩ := hstands
      cases hend : (Compiler.Config.running stats' cont' a).ending with
      | none =>
        have hoperands : operands (.running stats' cont' a) = ⟨a.state.env, [], none⟩ := by
          simp only [operands, hend]
          rfl
        rw [hoperands]
        exact ⟨Nat.zero_le _, k, p, hk⟩
      | some l =>
        obtain ⟨rfl, rfl, rfl⟩ : stats' = [] ∧ cont' = .done ∧ l = .returned .void := by
          rcases stats' with _ | ⟨stat, rest⟩
          · cases cont' with
            | done => exact ⟨rfl, rfl, (Option.some.inj hend).symm⟩
            | seq | whileLoop | forLoop => cases hend
          · cases hend
        obtain ⟨-, -, -, -, hret, -⟩ := buildIRMethod_ok hm
        have hin : InstrsAt irm.graph [.return .void] p (p.1, p.2 + 1) := by
          refine LeavesAt.returns hret (hfinal trivial) (graphSteps_inside hk (.start _)) fun hbehind => ?_
          refine graphSteps_behind hk (.start _) hbehind ?_ rfl rfl
          rintro ⟨i, q, ⟨heq, -⟩, -⟩
          exact absurd (congrArg Prod.snd heq) (Nat.succ_ne_zero _).symm
        obtain ⟨k', hk'⟩ := instrAt_runs (M := F.blocks) (.return .void) hin
          (some ⟨a.state.env, [], none⟩)
        exact ⟨Nat.zero_le _, k + k', _, hk.trans hk'⟩

end Frame

end KeyboardFirmware.Vm
