/-
  The builder puts its code where `CodeIn` says: one lemma for each way of putting code together,
  and from these, by recursion over the syntax, `exprCode_spec` and `buildIRStatements_spec`.
-/
import KeyboardFirmware.Compiler.CodeIn

namespace KeyboardFirmware.Compiler

variable {P Q : IRGraph IRInstruction → LoopEnv → PosRel} {c c1 c2 : Code}

/-! ## Straight code -/

theorem appendInstructionsM_spec (is : List IRInstruction) :
    CodeSpec (fun G _ => InstrsAt G is) (appendInstructionsM is) := by
  intro st acc acc' st' h _ hopen
  cases h
  refine (Ran.refl st hopen).congr (fun _ => Iff.rfl) fun G _ hG => ?_
  obtain ⟨b, hb, hpre⟩ := hG
  have hrev : (is.reverse ++ acc.revInstrs).reverse = acc.revInstrs.reverse ++ is := by simp
  have hpre' : acc.revInstrs.reverse ++ is <+: b.instrs := hrev ▸ hpre
  obtain ⟨t, ht⟩ := hpre'
  refine ⟨⟨b, hb, is ++ t, by rw [← ht, List.append_assoc]⟩, ?_, b, hb, t, ?_⟩
  · simp [BlockAccum.pos, appendInstructions, Nat.add_comm]
  · rw [← ht, List.append_assoc]
    simp [BlockAccum.pos]

theorem pure_spec : CodeSpec (fun _ _ => stay) pure := by
  intro st acc acc' st' h _ hopen
  cases h
  exact (Ran.refl st hopen).congr (fun _ => Iff.rfl) fun G _ hG => ⟨hG, rfl⟩

theorem notMatched_spec : CodeSpec P notMatched := by
  intro st acc acc' st' h
  cases h

theorem CodeSpec.mono (h : CodeSpec P c) (hPQ : ∀ G env p q, P G env p q → Q G env p q) :
    CodeSpec Q c := by
  intro st acc acc' st' hrun henv hopen
  exact (h hrun henv hopen).congr (fun _ => Iff.rfl) fun G hG hh =>
    ⟨(hG hh).1, hPQ _ _ _ _ (hG hh).2⟩

theorem CodeSpec.seq (h1 : CodeSpec P c1) (h2 : CodeSpec Q c2) :
    CodeSpec (fun G env => andThen (P G env) (Q G env)) fun acc => c1 acc >>= c2 := by
  intro st acc acc' st' h henv hopen
  obtain ⟨acc1, st1, hr1, hr2⟩ := state_bind_ok.mp h
  have r1 := h1 hr1 henv hopen
  have r2 := h2 hr2 (henv.builds r1.1) (r1.opened rfl)
  refine (r1.trans r2 fun _ h => h).congr (fun n => by tauto) fun G hG hh => ?_
  obtain ⟨hh1, hq⟩ := hG.2 hh
  obtain ⟨hh0, hp⟩ := hG.1 hh1
  rw [r1.1.env_eq] at hq
  exact ⟨hh0, acc1.pos, hp, hq⟩

theorem CodeSpec.guarded {e : CompileError} {b : Bool} (h : CodeSpec P c) :
    CodeSpec (fun G env p q => b = true ∧ P G env p q) (fun acc => do guardError e b; c acc) := by
  intro st acc acc' st' hrun henv hopen
  obtain ⟨u, st1, hguard, hrun⟩ := state_bind_ok.mp hrun
  obtain ⟨u', hb, heq⟩ := state_lift_ok.mp hguard
  cases heq
  exact (h hrun henv hopen).congr (fun _ => Iff.rfl) fun G hG hh =>
    ⟨(hG hh).1, guardError_ok.mp hb, (hG hh).2⟩

theorem booleanCast_spec (t : Typ) : CodeSpec (fun G _ => booleanCastIn G t) (booleanCast t) := by
  cases t with
  | byte => exact pure_spec
  | short => exact appendInstructionsM_spec _
  | void => intro st acc acc' st' h; cases h

theorem discardValue_spec (t : Typ) : CodeSpec (fun G _ => discardIn G t) (discardValue t) := by
  cases t with
  | void => exact pure_spec
  | byte | short => exact appendInstructionsM_spec _

/-! ## Conditions -/

section Conditions

variable {R S : IRGraph IRInstruction → CondRel} {d d1 d2 : CondCode}
  {V W : IRGraph IRInstruction → PosRel}

/-- A value on which a block branches. -/
theorem branch_spec (op : Vm.CondOp) (h : CodeSpec (fun G _ => V G) c) :
    CondSpec (fun G p ifId elseId =>
        ∃ r, V G p r ∧ EndsAt G r [(.conditional op, ifId), (.default, elseId)])
      (fun ifId elseId acc => do
        let acc ← c acc
        commitBasicBlock [(.conditional op, ifId), (.default, elseId)] acc) := by
  intro ifId elseId st acc u st' hrun henv hopen hif helse
  obtain ⟨acc1, st1, hr1, hr2⟩ := state_bind_ok.mp hrun
  have r1 := h hr1 henv hopen
  have hle := r1.1.size_le
  obtain ⟨-, r2⟩ := commitBasicBlock_ran hr2 (r1.opened rfl) (.inr (.inr ⟨_, _, _, rfl⟩))
    (by intro e he; simp only [List.mem_cons, List.not_mem_nil, or_false] at he
        rcases he with rfl | rfl
        · exact hif.trans_le hle
        · exact helse.trans_le hle)
  refine (r1.trans r2 fun _ h => h).congr (fun n => by tauto) fun G hG => ?_
  obtain ⟨hh, hends⟩ := hG.2
  exact ⟨(hG.1 hh).1, acc1.pos, (hG.1 hh).2, hends⟩

theorem condOfValue_spec (h : CodeSpec (fun G _ => V G) c) :
    CondSpec (fun G => condOfValueIn G (V G)) (condOfValue c) := branch_spec .ifNe h

theorem condNot_spec (h : CondSpec R d) : CondSpec (fun G => condNotIn (R G)) (condNot d) := by
  intro ifId elseId st acc u st' hrun henv hopen hif helse
  exact h hrun henv hopen helse hif

theorem condConstant_spec (b : Bool) :
    CondSpec (fun G => condConstantIn G b) (condConstant b) := by
  intro ifId elseId st acc u st' hrun henv hopen hif helse
  exact (commitBasicBlock_ran hrun hopen (.inr (.inl ⟨_, rfl⟩))
    (by intro e he; cases List.mem_singleton.mp he; cases b <;> assumption)).2

/-- Two conditions, the second in a new block. -/
theorem twoConds_spec (h1 : CondSpec R d1) (h2 : CondSpec S d2) (f g : Nat → Nat → Nat → Nat)
    (hf : ∀ i j k, f i j k = i ∨ f i j k = j ∨ f i j k = k)
    (hg : ∀ i j k, g i j k = i ∨ g i j k = j ∨ g i j k = k) :
    CondSpec (fun G p ifId elseId => ∃ rhsId, R G p (f ifId elseId rhsId) (g ifId elseId rhsId) ∧
        S G (rhsId, 0) ifId elseId)
      (fun ifId elseId acc => do
        let rhsAccum ← newBasicBlock
        d1 (f ifId elseId rhsAccum.id) (g ifId elseId rhsAccum.id) acc
        d2 ifId elseId rhsAccum) := by
  intro ifId elseId st acc u st' hrun henv hopen hif helse
  obtain ⟨rhs, st1, hnew, hrun⟩ := state_bind_ok.mp hrun
  obtain ⟨u1, st2, hr1, hr2⟩ := state_bind_ok.mp hrun
  obtain ⟨rfl, hsize, r0⟩ := newBasicBlock_ran hnew
  have hnacc : acc.id ≠ st.blockGraph.size := hopen.1.ne
  have r01 := (Ran.refl st hopen).trans r0 fun n h => h.elim
  have htarget : ∀ n, n = ifId ∨ n = elseId ∨ n = st.blockGraph.size → n < st1.blockGraph.size := by
    intro n hn
    rcases hn with rfl | rfl | rfl <;> omega
  have r1 := h1 hr1 (henv.builds r01.1) (r01.opened (.inl ⟨rfl, fun h => h⟩))
    (htarget _ (hf _ _ _)) (htarget _ (hg _ _ _))
  have r2 := r01.trans r1 fun n hn => .inl ⟨hn, fun h => h⟩
  have hle := r1.1.size_le
  have r3 := h2 hr2 (henv.builds r2.1) (r2.opened (.inl ⟨.inr rfl, fun h => hnacc h.symm⟩))
    (by omega) (by omega)
  refine (r2.trans r3 fun n hn => .inl ⟨.inr hn, ?_⟩).congr ?_ fun G hG => ?_
  · rintro rfl
    exact hnacc hn
  · intro n
    simp only
    tauto
  · obtain ⟨⟨-, hh, hR⟩, -, hS⟩ := hG
    exact ⟨hh, _, hR, hS⟩

theorem condDisj_spec (h1 : CondSpec R d1) (h2 : CondSpec S d2) :
    CondSpec (fun G => condDisjIn (R G) (S G)) (condDisj d1 d2) :=
  twoConds_spec h1 h2 (fun i _ _ => i) (fun _ _ k => k) (by simp) (by simp)

theorem condConj_spec (h1 : CondSpec R d1) (h2 : CondSpec S d2) :
    CondSpec (fun G => condConjIn (R G) (S G)) (condConj d1 d2) :=
  twoConds_spec h1 h2 (fun _ _ k => k) (fun _ j _ => j) (by simp) (by simp)

theorem operand_spec (t : Typ) (zero otherZero : Bool) (h : CodeSpec (fun G _ => V G) c) :
    CodeSpec (fun G _ => operandIn G t zero otherZero (V G))
      (if zero then pure else if otherZero then booleanValue t c else c) := by
  cases zero
  · cases otherZero
    · exact h
    · exact h.seq (booleanCast_spec t)
  · exact pure_spec

theorem condComparison_spec (t tr : Typ) (op : BinaryOp) (zLhs zRhs : Bool)
    (h1 : CodeSpec (fun G _ => V G) c1) (h2 : CodeSpec (fun G _ => W G) c2) :
    CondSpec (fun G => condComparisonIn G t tr op zLhs zRhs (V G) (W G))
      (condComparison t tr op zLhs zRhs c1 c2) := by
  intro ifId elseId st acc u st' hrun henv hopen hif helse
  obtain ⟨u1, st1, hguard, hrun⟩ := state_bind_ok.mp hrun
  obtain ⟨u2, hz, heq⟩ := state_lift_ok.mp hguard
  cases heq
  have hcmp : CodeSpec (fun G _ => if zLhs || zRhs then stay else InstrsAt G [.arith t .cmp])
      (if zLhs || zRhs then pure else appendInstructionsM [.arith t .cmp]) := by
    cases zLhs || zRhs
    · exact appendInstructionsM_spec _
    · exact pure_spec
  have hcode := ((operand_spec t zLhs zRhs h1).seq (operand_spec tr zRhs zLhs h2)).seq hcmp
  have hbranch := branch_spec (Vm.conditionFor (if zLhs then flipOp op else op)) hcode
  refine (@hbranch ifId elseId st acc u st' ?_ henv hopen hif helse).congr (fun _ => Iff.rfl)
    fun G hG => ?_
  · simpa only [bind_assoc] using hrun
  · obtain ⟨hh, r, hr, hends⟩ := hG
    exact ⟨hh, by simpa only [Bool.not_eq_true'] using guardError_ok.mp hz, r, hr, hends⟩

theorem conditionalToVoid_spec (h : CondSpec R d) :
    CodeSpec (fun G _ => voidIn (R G)) (conditionalToVoid d) := by
  intro st acc acc' st' hrun henv hopen
  obtain ⟨after, st1, hnew, hrun⟩ := state_bind_ok.mp hrun
  obtain ⟨u, st2, hr1, hr2⟩ := state_bind_ok.mp hrun
  cases hr2
  obtain ⟨rfl, hsize, r0⟩ := newBasicBlock_ran hnew
  have hnacc : acc.id ≠ st.blockGraph.size := hopen.1.ne
  have r01 := (Ran.refl st hopen).trans r0 fun n h => h.elim
  have r1 := h hr1 (henv.builds r01.1) (r01.opened (.inl ⟨rfl, fun h => h⟩))
    (show st.blockGraph.size < _ by omega) (show st.blockGraph.size < _ by omega)
  refine (r01.trans r1 fun n hn => .inl ⟨hn, fun h => h⟩).congr ?_ fun G hG _ => ?_
  · intro n
    simp only
    constructor
    · tauto
    · rintro rfl
      exact .inl ⟨.inr rfl, fun h => hnacc h.symm⟩
  · obtain ⟨-, hh, hR⟩ := hG
    exact ⟨hh, _, hR, rfl⟩

/-- A new block that is committed with one instruction. -/
theorem constantBlock_of {G : IRGraph IRInstruction} {n m : Nat} {v : VByte} {st : BlockingState}
    {acc : BlockAccum} (hacc : appendInstructionsM [.bconst v] ⟨n, []⟩ st = .ok (acc, st))
    (hh : Holds G acc) (hends : EndsAt G acc.pos [(.default, m)]) : constantBlock G n v m := by
  cases hacc
  obtain ⟨b, hb, hpre⟩ := hh
  exact ⟨_, ⟨rfl, b, hb, hpre⟩, hends⟩

theorem conditionalToBooleanValue_spec (h : CondSpec R d) :
    CodeSpec (fun G _ => booleanValueIn G (R G)) (conditionalToBooleanValue d) := by
  intro st acc acc' st' hrun henv hopen
  simp only [conditionalToBooleanValue, state_bind_ok] at hrun
  obtain ⟨thenAcc, st1, hnew1, elseAcc, st2, hnew2, afterAcc, st3, hnew3, u1, st4, hcond, hrun⟩ := hrun
  obtain ⟨thenEnd, st5, hthen, u2, st6, hcommit1, elseEnd, st7, helse, u3, st8, hcommit2, hret⟩ := hrun
  obtain ⟨rfl, hsize1, n1⟩ := newBasicBlock_ran hnew1
  obtain ⟨rfl, hsize2, n2⟩ := newBasicBlock_ran hnew2
  obtain ⟨rfl, hsize3, n3⟩ := newBasicBlock_ran hnew3
  obtain ⟨rfl, rfl⟩ := Prod.mk.inj (state_pure_ok.mp hret)
  have hthen' := hthen
  have helse' := helse
  obtain ⟨rfl, rfl⟩ := Prod.mk.inj (state_pure_ok.mp hthen)
  obtain ⟨rfl, rfl⟩ := Prod.mk.inj (state_pure_ok.mp helse)
  have hacc := hopen.1
  have r1 := (Ran.refl st hopen).trans n1 fun n h => h.elim
  have r2 := r1.trans n2 fun n h => h.elim
  have r3 := r2.trans n3 fun n h => h.elim
  have r4 := h hcond (henv.builds r3.1) (r3.opened (by simp)) (by simp only; omega)
    (by simp only; omega)
  have r5 := r3.trans r4 (by simp)
  have hle := r4.1.size_le
  obtain ⟨hsize6, c6⟩ := commitBasicBlock_ran hcommit1 (r5.opened (by simp [appendInstructions]; omega))
    (.inr (.inl ⟨_, rfl⟩)) (by simp; omega)
  have r6 := r5.trans c6 (by simp [appendInstructions]; omega)
  obtain ⟨hsize8, c8⟩ := commitBasicBlock_ran hcommit2 (r6.opened (by simp [appendInstructions]; omega))
    (.inr (.inl ⟨_, rfl⟩)) (by simp; omega)
  have r8 := r6.trans c8 (by simp [appendInstructions]; omega)
  refine r8.congr ?_ fun G hG _ => ?_
  · intro n
    simp [appendInstructions]
    omega
  · obtain ⟨⟨⟨-, hh, hR⟩, hth, hte⟩, heh, hee⟩ := hG
    exact ⟨hh, _, _, _, hR, constantBlock_of hthen' hth hte, constantBlock_of helse' heh hee, rfl⟩

end Conditions

/-! ## Expressions -/

/-- The three codes of an expression stand as the three relations say. -/
structure ExprSpec (I : IRGraph IRInstruction → ExprIn) (c : ExprCode) : Prop where
  value : CodeSpec (fun G _ => (I G).value) c.value
  void : CodeSpec (fun G _ => (I G).void) c.void
  cond : CondSpec (fun G => (I G).cond) c.cond

variable {V W : IRGraph IRInstruction → PosRel} {R : IRGraph IRInstruction → CondRel} {d : CondCode}

theorem ExprSpec.ofValue (h1 : CodeSpec (fun G _ => V G) c1) (h2 : CodeSpec (fun G _ => W G) c2) :
    ExprSpec (fun G => .ofValue G (V G) (W G)) (.ofValue c1 c2) :=
  ⟨h1, h2, condOfValue_spec h1⟩

theorem ExprSpec.ofCond (h1 : CondSpec R d) (h2 : CodeSpec (fun G _ => W G) c2) :
    ExprSpec (fun G => .ofCond G (R G) (W G)) (.ofCond d c2) :=
  ⟨conditionalToBooleanValue_spec h1, h2, h1⟩

theorem prefixStep_spec (op : PrefixOp) (e : TExpression) (hvoid : CodeSpec (fun G _ => W G) c2) :
    ExprSpec (fun G => (prefixStepIn G op e).getD (.ofValue G (fun _ _ => False) (W G)))
      ((prefixStep op e).getD (.ofValue notMatched c2)) := by
  cases e
  case globalLoad => exact .ofValue (appendInstructionsM_spec _) (appendInstructionsM_spec _)
  case localLoad => exact .ofValue (appendInstructionsM_spec _) (appendInstructionsM_spec _)
  all_goals exact .ofValue notMatched_spec hvoid

theorem postfixStep_spec (op : PostfixOp) (e : TExpression) :
    ExprSpec (fun G => postfixStepIn G op e) (postfixStep op e) := by
  cases e
  case globalLoad => exact .ofValue (appendInstructionsM_spec _) (appendInstructionsM_spec _)
  case localLoad => exact .ofValue (appendInstructionsM_spec _) (appendInstructionsM_spec _)
  all_goals exact .ofValue notMatched_spec notMatched_spec

theorem literal_spec (i : IRInstruction) (b : Bool) :
    ExprSpec (fun G => ⟨InstrsAt G [i], stay, condConstantIn G b⟩)
      ⟨appendInstructionsM [i], pure, condConstant b⟩ :=
  ⟨appendInstructionsM_spec _, pure_spec, condConstant_spec b⟩

mutual

/-- The builder puts the codes of an expression where `exprIn` says. -/
theorem exprCode_spec : ∀ e, ExprSpec (fun G => exprIn G e) (exprCode e)
  | .globalStore t i e =>
    have h := (exprCode_spec e).value
    .ofValue (h.seq (appendInstructionsM_spec _)) (h.seq (appendInstructionsM_spec _))
  | .localStore t i e =>
    have h := (exprCode_spec e).value
    .ofValue (h.seq (appendInstructionsM_spec _)) (h.seq (appendInstructionsM_spec _))
  | .globalLoad _ i => .ofValue (appendInstructionsM_spec _) pure_spec
  | .localLoad _ i => .ofValue (appendInstructionsM_spec _) pure_spec
  | .prefixExpression _ .not e =>
    have h := condNot_spec (exprCode_spec e).cond
    .ofCond h (conditionalToVoid_spec h)
  | .prefixExpression t .complement e =>
    have h := exprCode_spec e
    .ofValue (h.value.seq (appendInstructionsM_spec _)) h.void
  | .prefixExpression t .minus e =>
    have h := exprCode_spec e
    .ofValue ((appendInstructionsM_spec _).seq (h.value.seq (appendInstructionsM_spec _))) h.void
  | .prefixExpression _ .predecrement e => prefixStep_spec _ e (exprCode_spec e).void
  | .prefixExpression _ .preincrement e => prefixStep_spec _ e (exprCode_spec e).void
  | .postfixExpression _ e op => postfixStep_spec op e
  | .binaryExpression t lhs op rhs => by
    have hl := exprCode_spec lhs
    have hr := exprCode_spec rhs
    have hvoid := hl.void.seq hr.void
    have hcmp := condComparison_spec (typeOf lhs) (typeOf rhs) op (isZero lhs) (isZero rhs)
      hl.value hr.value
    cases op
    case conj =>
      have h := condConj_spec hl.cond hr.cond
      exact .ofCond h (conditionalToVoid_spec h)
    case disj =>
      have h := condDisj_spec hl.cond hr.cond
      exact .ofCond h (conditionalToVoid_spec h)
    case gt | ge | lt | le | eq | ne => exact .ofCond hcmp hvoid
    all_goals exact .ofValue (hl.value.seq (hr.value.seq (appendInstructionsM_spec _))) hvoid
  | .shortLiteral val => literal_spec _ _
  | .byteLiteral val => literal_spec _ _
  | .methodCall t i args =>
    have h := (argsCode_spec args).seq (appendInstructionsM_spec [.call i])
    .ofValue h (h.seq (discardValue_spec t))
  | .syscall t op args =>
    have h := (argsCode_spec args).seq (appendInstructionsM_spec [.syscall op])
    .ofValue h (h.seq (discardValue_spec t))
  | .typeConversion .void e =>
    have h := exprCode_spec e
    .ofValue h.void h.void
  | .typeConversion .short e => by
    have h := exprCode_spec e
    refine .ofValue (CodeSpec.mono (h.value.seq (appendInstructionsM_spec [.b2s])).guarded ?_) h.void
    rintro G env p q ⟨ht, hcode⟩
    exact ⟨by simpa using ht, hcode⟩
  | .typeConversion .byte e => by
    have h := exprCode_spec e
    refine .ofValue (CodeSpec.mono (h.value.seq (appendInstructionsM_spec [.s2b])).guarded ?_) h.void
    rintro G env p q ⟨ht, hcode⟩
    exact ⟨by simpa using ht, hcode⟩
  | .booleanConversion e =>
    have h := exprCode_spec e
    .ofValue (h.value.seq (booleanCast_spec _)) h.void

theorem argsCode_spec : ∀ es, CodeSpec (fun G _ => argsIn G es) (argsCode es)
  | [] => pure_spec
  | e :: es => (exprCode_spec e).value.seq (argsCode_spec es)

end

/-! ## Statements -/

/-- A block that is committed with a default edge. -/
theorem commitDefault_ran {st st' : BlockingState} {acc : BlockAccum} {u : Unit} {k : Nat}
    (h : commitBasicBlock [(.default, k)] acc st = .ok (u, st')) (hopen : OpenAt st.blockGraph acc.id)
    (hk : k < st.blockGraph.size) :
    st'.blockGraph.size = st.blockGraph.size ∧
      Ran st (fun n => n = acc.id) st' (fun _ => False) fun G =>
        Holds G acc ∧ EndsAt G acc.pos [(.default, k)] :=
  commitBasicBlock_ran h hopen (.inr (.inl ⟨_, rfl⟩)) (by simpa using hk)

/-- Code whose last block is committed with a default edge. -/
theorem CodeSpec.thenCommit (h : CodeSpec P c) {st st' : BlockingState} {acc : BlockAccum} {u : Unit}
    {k : Nat} (hrun : (c acc >>= commitBasicBlock [(.default, k)]) st = .ok (u, st')) (henv : EnvOK st)
    (hopen : OpenAt st.blockGraph acc.id) (hk : k < st.blockGraph.size) :
    Ran st (fun n => n = acc.id) st' (fun _ => False) fun G =>
      Holds G acc ∧ ∃ r, P G st.env acc.pos r ∧ EndsAt G r [(.default, k)] := by
  obtain ⟨acc1, st1, hr1, hr2⟩ := state_bind_ok.mp hrun
  have r1 := h hr1 henv hopen
  obtain ⟨-, r2⟩ := commitDefault_ran hr2 (r1.opened rfl) (hk.trans_le r1.1.size_le)
  refine (r1.trans r2 fun _ h => h).congr (fun n => by tauto) fun G hG => ?_
  obtain ⟨hh, hends⟩ := hG.2
  exact ⟨(hG.1 hh).1, acc1.pos, (hG.1 hh).2, hends⟩

theorem withLoopEnvironment_ok {β : Type} {contId breakId : Nat} {body : ThrowsBlockingState β}
    {st st' : BlockingState} {r : β}
    (h : withLoopEnvironment contId breakId body st = .ok (r, st')) :
    ∃ st1, body ⟨st.blockGraph, some contId, some breakId⟩ = .ok (r, st1) ∧
      st' = ⟨st1.blockGraph, st.continueBlockId, st.breakBlockId⟩ := by
  simp only [withLoopEnvironment, state_bind_ok, state_get_ok] at h
  obtain ⟨_, _, ⟨rfl, rfl⟩, _, _, hset, r', st1, hbody, _, _, hmod, hret⟩ := h
  cases hset
  cases hmod
  cases hret
  exact ⟨st1, hbody, rfl⟩

/-- The body of a loop: its `continue` leads to itself, its `break` out, its end to the condition. -/
theorem loopBody_ran (h : CodeSpec P c) {st st' : BlockingState} {acc : BlockAccum} {u : Unit}
    {condId followingId : Nat}
    (hrun : withLoopEnvironment acc.id followingId (c acc >>= commitBasicBlock [(.default, condId)]) st =
      .ok (u, st'))
    (hopen : OpenAt st.blockGraph acc.id) (hcond : condId < st.blockGraph.size)
    (hfollow : followingId < st.blockGraph.size) :
    Ran st (fun n => n = acc.id) st' (fun _ => False) fun G =>
      ∃ r, P G ⟨some acc.id, some followingId⟩ acc.pos r ∧ EndsAt G r [(.default, condId)] := by
  obtain ⟨st1, hbody, rfl⟩ := withLoopEnvironment_ok hrun
  have henv : EnvOK ⟨st.blockGraph, some acc.id, some followingId⟩ := by
    refine ⟨?_, ?_⟩ <;> rintro k ⟨rfl⟩
    · exact hopen.1
    · exact hfollow
  obtain ⟨hb, hfin⟩ := h.thenCommit hbody henv hopen hcond
  exact ⟨⟨rfl, rfl, hb.size_le, hb.beyond, hb.frame, hb.done, hb.opened⟩, fun G hG => (hfin G hG).2⟩

/-- A committed block, with dead code after it. -/
theorem deadAfter_ran {st st1 st' : BlockingState} {acc acc' : BlockAccum}
    {K : IRGraph IRInstruction → Prop}
    (h : Ran st (fun n => n = acc.id) st1 (fun _ => False) K)
    (hnew : newBasicBlock st1 = .ok (acc', st')) :
    acc'.pos.2 = 0 ∧ Ran st (fun n => n = acc.id) st' (fun n => n = acc'.id) K := by
  obtain ⟨rfl, -, hn⟩ := newBasicBlock_ran hnew
  exact ⟨rfl, (h.trans hn fun _ h => h).congr (by simp) fun G hG => hG.1⟩

theorem jump_spec {target : BlockingState → Option Nat} {e : CompileError}
    (htarget : ∀ st k, EnvOK st → target st = some k → k < st.blockGraph.size) {f : LoopEnv → Option Nat}
    (hf : ∀ st : BlockingState, f st.env = target st) :
    CodeSpec (fun G env => jumpIn G (f env)) (fun acc => do
      let id := target (← get)
      match id with
      | none => throw e
      | some id =>
        commitBasicBlock [(.default, id)] acc
        newBasicBlock) := by
  intro st acc acc' st' hrun henv hopen
  obtain ⟨_, _, hget, hrun⟩ := state_bind_ok.mp hrun
  cases state_get_ok.mp hget
  cases hk : target st with
  | none =>
    simp only [hk] at hrun
    cases hrun
  | some k =>
    simp only [hk] at hrun
    obtain ⟨u, st1, hcommit, hnew⟩ := state_bind_ok.mp hrun
    obtain ⟨-, hc⟩ := commitDefault_ran hcommit hopen (htarget st k henv hk)
    obtain ⟨hzero, hr⟩ := deadAfter_ran hc hnew
    exact hr.congr (fun _ => Iff.rfl) fun G hG _ =>
      ⟨hG.1, ⟨k, (hf st).trans hk, hG.2⟩, hzero⟩

theorem leave_spec (h : CodeSpec P c) :
    CodeSpec (fun G env => leaveIn G (P G env)) (fun acc => do
      commitBasicBlock [] (← c acc)
      newBasicBlock) := by
  intro st acc acc' st' hrun henv hopen
  obtain ⟨acc1, st1, hcode, hrun⟩ := state_bind_ok.mp hrun
  obtain ⟨u, st2, hcommit, hnew⟩ := state_bind_ok.mp hrun
  have r1 := h hcode henv hopen
  obtain ⟨-, r2⟩ := commitBasicBlock_ran hcommit (r1.opened rfl) (.inl rfl) (by simp)
  have r12 : Ran st (fun n => n = acc.id) st2 (fun _ => False) _ :=
    (r1.trans r2 fun _ h => h).congr (fun n => by tauto) fun G hG => hG
  obtain ⟨hzero, hr⟩ := deadAfter_ran r12 hnew
  refine hr.congr (fun _ => Iff.rfl) fun G hG _ => ?_
  obtain ⟨hh, hends⟩ := hG.2
  exact ⟨(hG.1 hh).1, ⟨acc1.pos, (hG.1 hh).2, hends⟩, hzero⟩

mutual

/-- The builder puts the code of a statement where `stmtIn` says. -/
theorem buildIRStatement_spec :
    ∀ s, CodeSpec (fun G env => stmtIn G s env) (buildIRStatement s)
  | .block _ stats => buildIRStatements_spec stats
  | .ifStatement expr thenBody none => by
    intro st acc acc' st' hrun henv hopen
    simp only [buildIRStatement, state_bind_ok] at hrun
    obtain ⟨thenAcc, st1, hnew1, following, st2, hnew2, hrun⟩ := hrun
    obtain ⟨u1, st3, hcond, thenEnd, st4, hthen, u2, st5, hcommit, hret⟩ := hrun
    obtain ⟨rfl, hsize1, n1⟩ := newBasicBlock_ran hnew1
    obtain ⟨rfl, hsize2, n2⟩ := newBasicBlock_ran hnew2
    obtain ⟨rfl, rfl⟩ := Prod.mk.inj (state_pure_ok.mp hret)
    have hacc := hopen.1
    have r2 := ((Ran.refl st hopen).trans n1 (by simp)).trans n2 (by simp)
    have r3 := (exprCode_spec expr).cond hcond (henv.builds r2.1) (r2.opened (by simp))
      (by simp only; omega) (by simp only; omega)
    have r03 := r2.trans r3 (by simp)
    have hle := r3.1.size_le
    have r4 := (buildIRStatement_spec thenBody).thenCommit
      (state_bind_ok.mpr ⟨_, _, hthen, hcommit⟩) (henv.builds r03.1)
      (r03.opened (by simp; omega)) (by simp only; omega)
    refine (r03.trans r4 (by simp; omega)).congr ?_ fun G hG _ => ?_
    · intro n
      simp
      omega
    · obtain ⟨⟨-, hh, hc⟩, -, r, hr, hends⟩ := hG
      rw [r03.1.env_eq] at hr
      exact ⟨hh, _, _, r, hc, hr, hends, rfl⟩
  | .ifStatement expr thenBody (some elseBody) => by
    intro st acc acc' st' hrun henv hopen
    simp only [buildIRStatement, state_bind_ok] at hrun
    obtain ⟨thenAcc, st1, hnew1, following, st2, hnew2, elseAcc, st3, hnew3, hrun⟩ := hrun
    obtain ⟨u1, st4, hcond, thenEnd, st5, hthen, u2, st6, hcommit, hrun⟩ := hrun
    obtain ⟨elseEnd, st7, helse, u3, st8, hcommit', hret⟩ := hrun
    obtain ⟨rfl, hsize1, n1⟩ := newBasicBlock_ran hnew1
    obtain ⟨rfl, hsize2, n2⟩ := newBasicBlock_ran hnew2
    obtain ⟨rfl, hsize3, n3⟩ := newBasicBlock_ran hnew3
    obtain ⟨rfl, rfl⟩ := Prod.mk.inj (state_pure_ok.mp hret)
    have hacc := hopen.1
    have r3 := (((Ran.refl st hopen).trans n1 (by simp)).trans n2 (by simp)).trans n3 (by simp)
    have r4 := (exprCode_spec expr).cond hcond (henv.builds r3.1) (r3.opened (by simp))
      (by simp only; omega) (by simp only; omega)
    have r04 := r3.trans r4 (by simp)
    have hle := r4.1.size_le
    have r5 := (buildIRStatement_spec thenBody).thenCommit
      (state_bind_ok.mpr ⟨_, _, hthen, hcommit⟩) (henv.builds r04.1)
      (r04.opened (by simp; omega)) (by simp only; omega)
    have r05 := r04.trans r5 (by simp; omega)
    have hle' := r5.1.size_le
    have r6 := (buildIRStatement_spec elseBody).thenCommit
      (state_bind_ok.mpr ⟨_, _, helse, hcommit'⟩) (henv.builds r05.1)
      (r05.opened (by simp; omega)) (by simp only; omega)
    refine (r05.trans r6 (by simp; omega)).congr ?_ fun G hG _ => ?_
    · intro n
      simp
      omega
    · obtain ⟨⟨⟨-, hh, hc⟩, -, r, hr, hends⟩, -, r', hr', hends'⟩ := hG
      rw [r04.1.env_eq] at hr
      rw [r05.1.env_eq] at hr'
      exact ⟨hh, _, _, _, r, r', hc, hr, hends, hr', hends', rfl⟩
  | .whileStatement cond body => by
    intro st acc acc' st' hrun henv hopen
    simp only [buildIRStatement, state_bind_ok] at hrun
    obtain ⟨condAcc, st1, hnew1, bodyAcc, st2, hnew2, following, st3, hnew3, hrun⟩ := hrun
    obtain ⟨u1, st4, hcommit, u2, st5, hcond, u3, st6, hbody, hret⟩ := hrun
    obtain ⟨rfl, hsize1, n1⟩ := newBasicBlock_ran hnew1
    obtain ⟨rfl, hsize2, n2⟩ := newBasicBlock_ran hnew2
    obtain ⟨rfl, hsize3, n3⟩ := newBasicBlock_ran hnew3
    obtain ⟨rfl, rfl⟩ := Prod.mk.inj (state_pure_ok.mp hret)
    have hacc := hopen.1
    have r3 := (((Ran.refl st hopen).trans n1 (by simp)).trans n2 (by simp)).trans n3 (by simp)
    obtain ⟨hsize4, r4⟩ := commitDefault_ran hcommit (r3.opened (by simp)) (by simp only; omega)
    have r04 := r3.trans r4 (by simp)
    have r5 := (exprCode_spec cond).cond hcond (henv.builds r04.1) (r04.opened (by simp; omega))
      (by simp only; omega) (by simp only; omega)
    have r05 := r04.trans r5 (by simp; omega)
    have hle := r5.1.size_le
    have r6 := loopBody_ran (buildIRStatement_spec body) hbody (r05.opened (by simp; omega))
      (by simp only; omega) (by simp only; omega)
    refine (r05.trans r6 (by simp; omega)).congr ?_ fun G hG _ => ?_
    · intro n
      simp
      omega
    · obtain ⟨⟨⟨-, hh, hentry⟩, -, hc⟩, r, hr, hends⟩ := hG
      exact ⟨hh, _, _, _, r, hentry, hc, hr, hends, rfl⟩
  | .forStatement initializer cond iter body => by
    intro st acc acc' st' hrun henv hopen
    simp only [buildIRStatement, state_bind_ok] at hrun
    obtain ⟨condAcc, st1, hnew1, bodyAcc, st2, hnew2, following, st3, hnew3, hrun⟩ := hrun
    obtain ⟨initEnd, st4, hinit, u1, st5, hcommit, u2, st6, hcond, u3, st7, hbody, hret⟩ := hrun
    obtain ⟨rfl, hsize1, n1⟩ := newBasicBlock_ran hnew1
    obtain ⟨rfl, hsize2, n2⟩ := newBasicBlock_ran hnew2
    obtain ⟨rfl, hsize3, n3⟩ := newBasicBlock_ran hnew3
    obtain ⟨rfl, rfl⟩ := Prod.mk.inj (state_pure_ok.mp hret)
    have hacc := hopen.1
    have r3 := (((Ran.refl st hopen).trans n1 (by simp)).trans n2 (by simp)).trans n3 (by simp)
    have r4 := (exprCode_spec initializer).void.thenCommit
      (state_bind_ok.mpr ⟨_, _, hinit, hcommit⟩) (henv.builds r3.1) (r3.opened (by simp))
      (by simp only; omega)
    have r04 := r3.trans r4 (by simp)
    have hle := r4.1.size_le
    have r5 := (exprCode_spec cond).cond hcond (henv.builds r04.1) (r04.opened (by simp; omega))
      (by simp only; omega) (by simp only; omega)
    have r05 := r04.trans r5 (by simp; omega)
    have hle' := r5.1.size_le
    have r6 := loopBody_ran ((buildIRStatement_spec body).seq (exprCode_spec iter).void)
      (by simpa only [bind_assoc] using! hbody) (r05.opened (by simp; omega))
      (by omega) (by omega)
    refine (r05.trans r6 (by simp; omega)).congr ?_ fun G hG _ => ?_
    · intro n
      simp
      omega
    · obtain ⟨⟨⟨-, hh, r, hinit, hentry⟩, -, hc⟩, r'', ⟨r', hr', hiter⟩, hends⟩ := hG
      exact ⟨hh, _, _, _, r, r', r'', hinit, hentry, hc, hr', hiter, hends, rfl⟩
  | .breakStatement => jump_spec (fun st k henv hk => henv.2 k hk) fun _ => rfl
  | .continueStatement => jump_spec (fun st k henv hk => henv.1 k hk) fun _ => rfl
  | .exitStatement => leave_spec (appendInstructionsM_spec _)
  | .returnStatement => leave_spec (appendInstructionsM_spec _)
  | .returnValueStatement expr => by
    have h := leave_spec ((exprCode_spec expr).value.seq
      (appendInstructionsM_spec [.return (typeOf expr)]))
    intro st acc acc' st' hrun
    simp only [buildIRStatement] at hrun
    exact h (by simpa only [bind_assoc] using! hrun)
  | .expressionStatement expr => (exprCode_spec expr).void
  | .empty => pure_spec

theorem buildIRStatements_spec :
    ∀ ss, CodeSpec (fun G env => stmtsIn G ss env) (buildIRStatements ss)
  | [] => pure_spec
  | s :: ss => (buildIRStatement_spec s).seq (buildIRStatements_spec ss)

end

end KeyboardFirmware.Compiler
