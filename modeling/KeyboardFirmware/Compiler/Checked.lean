/-
  What the type checker hands on to the code generator.

  Every expression of a checked program is well-typed in the tables of its method, and `break` and
  `continue` stand in loops (`buildTProgram_checked`).  Folding leaves it so, and decides every
  comparison of two zeros (`constantEval_noZero`).
-/
import KeyboardFirmware.Compiler.BlockIR
import KeyboardFirmware.Compiler.Typing

namespace KeyboardFirmware.Compiler

/-! ## Comparisons of zeros -/

mutual

/-- No comparison in the expression is between two zero literals. -/
def NoZeroComparison : TExpression → Prop
  | .globalStore _ _ e => NoZeroComparison e
  | .localStore _ _ e => NoZeroComparison e
  | .globalLoad _ _ => True
  | .localLoad _ _ => True
  | .prefixExpression _ _ e => NoZeroComparison e
  | .postfixExpression _ e _ => NoZeroComparison e
  | .binaryExpression _ lhs op rhs =>
    (op.isComparison = true → (isZero lhs && isZero rhs) = false) ∧ NoZeroComparison lhs ∧
      NoZeroComparison rhs
  | .shortLiteral _ => True
  | .byteLiteral _ => True
  | .methodCall _ _ args => NoZeroComparisonArgs args
  | .syscall _ _ args => NoZeroComparisonArgs args
  | .typeConversion _ e => NoZeroComparison e
  | .booleanConversion e => NoZeroComparison e

/-- The same for arguments. -/
def NoZeroComparisonArgs : List TExpression → Prop
  | [] => True
  | e :: es => NoZeroComparison e ∧ NoZeroComparisonArgs es

end

variable {st st' : BindingState} {e e' : TExpression}

theorem noZeroComparison_literal {v : Val} (h : litVal e = some v) : NoZeroComparison e := by
  cases e with
  | shortLiteral val => exact trivial
  | byteLiteral val => exact trivial
  | _ => exact (nomatch h)

theorem noZeroComparison_load (h : isLoad e = true) : NoZeroComparison e := by
  cases e with
  | globalLoad t i => exact trivial
  | localLoad t i => exact trivial
  | _ => exact (nomatch h)

/-- A comparison of two zeros of one type is decided. -/
theorem evalBinary_zeros {op : BinaryOp} {lhs rhs : TExpression} (hop : op.isComparison = true)
    (ht : typeOf rhs = typeOf lhs) (hl : isZero lhs = true) (hr : isZero rhs = true) :
    (evalBinary lhs op rhs).isSome = true := by
  have hlogical : op.isLogical = false := by cases op <;> first | rfl | exact (nomatch hop)
  have hcmp : ∀ {n : Nat} (a b : BitVec n), (evalComparison a op b).isSome = true := by
    intro n a b
    cases op <;> first | rfl | exact (nomatch hop)
  cases lhs with
  | byteLiteral a =>
    cases rhs with
    | byteLiteral b =>
      rw [evalBinary_bytes _ _ hlogical, evalArith_comparison hop]
      simpa using hcmp a b
    | shortLiteral b => exact (nomatch ht)
    | _ => exact (nomatch hr)
  | shortLiteral a =>
    cases rhs with
    | shortLiteral b =>
      rw [evalBinary_shorts, evalArith_comparison hop]
      simpa using hcmp a b
    | byteLiteral b => exact (nomatch ht)
    | _ => exact (nomatch hr)
  | _ => exact (nomatch hl)

/-- What an operator is folded to is a literal. -/
theorem evalBinary_literal {op : BinaryOp} {lhs rhs : TExpression}
    (h : evalBinary lhs op rhs = some e) : ∃ v, litVal e = some v := by
  cases hop : op.isLogical with
  | true =>
    obtain ⟨a, rfl⟩ := evalBinary_logical_inv hop h
    rw [evalBinary_logical hop] at h
    split at h
    · exact Option.some.inj h ▸ ⟨_, rfl⟩
    · split at h
      · exact Option.some.inj h ▸ ⟨_, rfl⟩
      · cases h
  | false =>
    obtain ⟨x, y, hx, hy⟩ := evalBinary_arith_inv hop h
    have hor : ∀ {n : Nat} {f : BitVec n → TExpression} {a b : BitVec n},
        (∀ w, ∃ v, litVal (f w) = some v) → ((evalArith a op b).map f).or
          ((evalComparison a op b).map fun b => .byteLiteral (boolByte b)) = some e →
        ∃ v, litVal e = some v := by
      intro n f a b hf h
      rcases Option.or_eq_some_iff.mp h with h | ⟨-, h⟩
      · obtain ⟨w, -, rfl⟩ := Option.map_eq_some_iff.mp h
        exact hf w
      · obtain ⟨w, -, rfl⟩ := Option.map_eq_some_iff.mp h
        exact ⟨_, rfl⟩
    cases lhs with
    | byteLiteral a =>
      cases rhs with
      | byteLiteral b =>
        rw [evalBinary_bytes _ _ hop] at h
        exact hor (fun w => ⟨_, rfl⟩) h
      | shortLiteral b => cases op <;> simp_all [evalBinary, BinaryOp.isLogical]
      | _ => cases hy
    | shortLiteral a =>
      cases rhs with
      | shortLiteral b =>
        rw [evalBinary_shorts] at h
        exact hor (fun w => ⟨_, rfl⟩) h
      | byteLiteral b => simp [evalBinary] at h
      | _ => cases hy
    | _ => cases hx

theorem evalPrefix_literal {op : PrefixOp} (h : evalPrefix op e = some e') :
    ∃ v, litVal e' = some v := by
  obtain ⟨v, hv⟩ := evalPrefix_inv h
  cases e with
  | byteLiteral | shortLiteral => cases op <;> cases h <;> exact ⟨_, rfl⟩
  | _ => exact (nomatch hv)

theorem evalConversion_noZero (t : Typ) (h : NoZeroComparison e) :
    NoZeroComparison (evalConversion t e) := by
  unfold evalConversion
  split
  · exact trivial
  · exact trivial
  · exact h

theorem evalBoolean_noZero (h : NoZeroComparison e) : NoZeroComparison (evalBoolean e) := by
  unfold evalBoolean
  split
  · exact trivial
  · exact trivial
  · exact h

mutual

/-- **Folding decides every comparison of two zeros.** -/
theorem constantEval_noZero : ∀ (e : TExpression), WellTyped st e →
    NoZeroComparison (constantEval e)
  | .globalStore t i e, ⟨_, _, he⟩ => constantEval_noZero e he
  | .localStore t i e, ⟨_, _, he⟩ => constantEval_noZero e he
  | .globalLoad t i, _ => trivial
  | .localLoad t i, _ => trivial
  | .postfixExpression t e op, ⟨_, _, hload, _⟩ => @noZeroComparison_load e hload
  | .shortLiteral _, _ => trivial
  | .byteLiteral _, _ => trivial
  | .prefixExpression t op e, ⟨_, _, _, _, he⟩ => by
    show NoZeroComparison ((evalPrefix op (constantEval e)).getD _)
    cases heval : evalPrefix op (constantEval e) with
    | none => exact constantEval_noZero e he
    | some e' =>
      obtain ⟨v, hv⟩ := evalPrefix_literal heval
      exact noZeroComparison_literal hv
  | .binaryExpression t l op r, ⟨_, hr, _, _, hwl, hwr⟩ => by
    show NoZeroComparison ((evalBinary (constantEval l) op (constantEval r)).getD _)
    cases heval : evalBinary (constantEval l) op (constantEval r) with
    | none =>
      refine ⟨fun hop => ?_, constantEval_noZero l hwl, constantEval_noZero r hwr⟩
      have hty : typeOf (constantEval r) = typeOf (constantEval l) := by
        rw [(constantEval_wellTyped r hwr).1, (constantEval_wellTyped l hwl).1, hr]
      by_contra hzero
      obtain ⟨hl0, hr0⟩ : isZero (constantEval l) = true ∧ isZero (constantEval r) = true := by
        simpa using hzero
      have hsome := evalBinary_zeros hop hty hl0 hr0
      rw [heval] at hsome
      exact (nomatch hsome)
    | some e' =>
      obtain ⟨v, hv⟩ := evalBinary_literal heval
      exact noZeroComparison_literal hv
  | .methodCall t i args, ⟨_, _, _, _, _, hargs⟩ => constantEvalArgs_noZero args hargs
  | .syscall t op args, ⟨_, _, _, _, hargs⟩ => constantEvalArgs_noZero args hargs
  | .typeConversion t e, ⟨_, _, he⟩ => evalConversion_noZero t (constantEval_noZero e he)
  | .booleanConversion e, ⟨_, he⟩ => evalBoolean_noZero (constantEval_noZero e he)

theorem constantEvalArgs_noZero : ∀ (es : List TExpression), WellTypedArgs st es →
    NoZeroComparisonArgs (constantEvalArgs es)
  | [], _ => trivial
  | e :: es, ⟨he, hes⟩ => ⟨constantEval_noZero e he, constantEvalArgs_noZero es hes⟩

end

/-! ## Larger tables -/

/-- The tables of `st'` have the variables of those of `st`, and methods of the same signatures. -/
structure Extends (st st' : BindingState) : Prop where
  globals : st.globalVarIndex ⊆ st'.globalVarIndex
  locals : st.varIndex ⊆ st'.varIndex
  methods : ∀ m ∈ st.methodIndex, ∃ m' ∈ st'.methodIndex,
    m'.id = m.id ∧ m'.retType = m.retType ∧ m'.argTypes = m.argTypes

/-- Scopes, the type to return and the loop are no tables. -/
theorem Extends.of_eq (hm : st'.methodIndex = st.methodIndex)
    (hg : st'.globalVarIndex = st.globalVarIndex) (hv : st'.varIndex = st.varIndex) :
    Extends st st' :=
  ⟨hg ▸ List.Subset.refl _, hv ▸ List.Subset.refl _, fun m h => ⟨m, hm ▸ h, rfl, rfl, rfl⟩⟩

theorem Extends.trans {st'' : BindingState} (h : Extends st st') (h' : Extends st' st'') :
    Extends st st'' where
  globals := List.Subset.trans h.globals h'.globals
  locals := List.Subset.trans h.locals h'.locals
  methods m hm := by
    obtain ⟨m1, hm1, hid1, hret1, hargs1⟩ := h.methods m hm
    obtain ⟨m2, hm2, hid2, hret2, hargs2⟩ := h'.methods m1 hm1
    exact ⟨m2, hm2, hid2.trans hid1, hret2.trans hret1, hargs2.trans hargs1⟩

mutual

/-- What is well-typed stays so in larger tables. -/
theorem WellTyped.extends (h : Extends st st') : ∀ (e : TExpression), WellTyped st e →
    WellTyped st' e
  | .globalStore t i e, ⟨hi, ht, he⟩ => ⟨h.globals hi, ht, WellTyped.extends h e he⟩
  | .localStore t i e, ⟨hi, ht, he⟩ => ⟨h.locals hi, ht, WellTyped.extends h e he⟩
  | .globalLoad t i, hi => h.globals hi
  | .localLoad t i, hi => h.locals hi
  | .prefixExpression t op e, ⟨ht, hvoid, hnot, hstep, he⟩ =>
    ⟨ht, hvoid, hnot, hstep, WellTyped.extends h e he⟩
  | .postfixExpression t e op, ⟨ht, hvoid, hload, he⟩ =>
    ⟨ht, hvoid, hload, WellTyped.extends h e he⟩
  | .binaryExpression t l op r, ⟨ht, hr, hvoid, hlogical, hwl, hwr⟩ =>
    ⟨ht, hr, hvoid, hlogical, WellTyped.extends h l hwl, WellTyped.extends h r hwr⟩
  | .shortLiteral _, _ => trivial
  | .byteLiteral _, _ => trivial
  | .methodCall t i args, ⟨m, hm, hi, ht, hargs, hwell⟩ => by
    obtain ⟨m', hm', hid, hret, htypes⟩ := h.methods m hm
    exact ⟨m', hm', hid.trans hi, hret.trans ht, hargs.trans htypes.symm,
      WellTypedArgs.extends h args hwell⟩
  | .syscall t op args, ⟨nam, argTypes, hsys, hargs, hwell⟩ =>
    ⟨nam, argTypes, hsys, hargs, WellTypedArgs.extends h args hwell⟩
  | .typeConversion t e, ⟨hne, hvoid, he⟩ => ⟨hne, hvoid, WellTyped.extends h e he⟩
  | .booleanConversion e, ⟨ht, he⟩ => ⟨ht, WellTyped.extends h e he⟩

theorem WellTypedArgs.extends (h : Extends st st') : ∀ (es : List TExpression),
    WellTypedArgs st es → WellTypedArgs st' es
  | [], _ => trivial
  | e :: es, ⟨he, hes⟩ => ⟨WellTyped.extends h e he, WellTypedArgs.extends h es hes⟩

end

/-! ## Statements -/

mutual

/-- Every expression of the statement is as `P` says, and `break` and `continue` stand in loops. -/
def StmtChecked (P : TExpression → Prop) : Bool → TStatement → Prop
  | loop, .block _ stats => StmtsChecked P loop stats
  | loop, .ifStatement expr thenBody elseBody =>
    P expr ∧ StmtChecked P loop thenBody ∧ ElseChecked P loop elseBody
  | _, .whileStatement cond body => P cond ∧ StmtChecked P true body
  | _, .forStatement initializer cond iter body =>
    P initializer ∧ P cond ∧ P iter ∧ StmtChecked P true body
  | _, .expressionStatement expr => P expr
  | _, .returnValueStatement expr => P expr
  | _, .returnStatement => True
  | _, .exitStatement => True
  | loop, .breakStatement => loop = true
  | loop, .continueStatement => loop = true
  | _, .empty => True

def StmtsChecked (P : TExpression → Prop) : Bool → List TStatement → Prop
  | _, [] => True
  | loop, s :: ss => StmtChecked P loop s ∧ StmtsChecked P loop ss

def ElseChecked (P : TExpression → Prop) : Bool → Option TStatement → Prop
  | _, none => True
  | loop, some s => StmtChecked P loop s

end

section

variable {P Q : TExpression → Prop} {f : TExpression → TExpression}

mutual

theorem StmtChecked.mono (h : ∀ e, P e → Q e) : ∀ {loop : Bool} (s : TStatement),
    StmtChecked P loop s → StmtChecked Q loop s
  | _, .block _ stats, hs => StmtsChecked.mono h stats hs
  | _, .ifStatement _ thenBody elseBody, ⟨he, ht, hf⟩ =>
    ⟨h _ he, StmtChecked.mono h thenBody ht, ElseChecked.mono h elseBody hf⟩
  | _, .whileStatement _ body, ⟨he, hb⟩ => ⟨h _ he, StmtChecked.mono h body hb⟩
  | _, .forStatement _ _ _ body, ⟨hi, hc, ht, hb⟩ =>
    ⟨h _ hi, h _ hc, h _ ht, StmtChecked.mono h body hb⟩
  | _, .expressionStatement _, he => h _ he
  | _, .returnValueStatement _, he => h _ he
  | _, .returnStatement, _ => trivial
  | _, .exitStatement, _ => trivial
  | _, .breakStatement, hl => hl
  | _, .continueStatement, hl => hl
  | _, .empty, _ => trivial

theorem StmtsChecked.mono (h : ∀ e, P e → Q e) : ∀ {loop : Bool} (ss : List TStatement),
    StmtsChecked P loop ss → StmtsChecked Q loop ss
  | _, [], _ => trivial
  | _, s :: ss, ⟨hs, hss⟩ => ⟨StmtChecked.mono h s hs, StmtsChecked.mono h ss hss⟩

theorem ElseChecked.mono (h : ∀ e, P e → Q e) : ∀ {loop : Bool} (o : Option TStatement),
    ElseChecked P loop o → ElseChecked Q loop o
  | _, none, _ => trivial
  | _, some s, hs => StmtChecked.mono h s hs

end

mutual

/-- A function applied to every expression. -/
theorem StmtChecked.exMap (h : ∀ e, P e → Q (f e)) : ∀ {loop : Bool} (s : TStatement),
    StmtChecked P loop s → StmtChecked Q loop (exMapStatement f s)
  | _, .block _ stats, hs => StmtsChecked.exMap h stats hs
  | _, .ifStatement _ thenBody elseBody, ⟨he, ht, hf⟩ =>
    ⟨h _ he, StmtChecked.exMap h thenBody ht, ElseChecked.exMap h elseBody hf⟩
  | _, .whileStatement _ body, ⟨he, hb⟩ => ⟨h _ he, StmtChecked.exMap h body hb⟩
  | _, .forStatement _ _ _ body, ⟨hi, hc, ht, hb⟩ =>
    ⟨h _ hi, h _ hc, h _ ht, StmtChecked.exMap h body hb⟩
  | _, .expressionStatement _, he => h _ he
  | _, .returnValueStatement _, he => h _ he
  | _, .returnStatement, _ => trivial
  | _, .exitStatement, _ => trivial
  | _, .breakStatement, hl => hl
  | _, .continueStatement, hl => hl
  | _, .empty, _ => trivial

theorem StmtsChecked.exMap (h : ∀ e, P e → Q (f e)) : ∀ {loop : Bool} (ss : List TStatement),
    StmtsChecked P loop ss → StmtsChecked Q loop (exMapStatements f ss)
  | _, [], _ => trivial
  | _, s :: ss, ⟨hs, hss⟩ => ⟨StmtChecked.exMap h s hs, StmtsChecked.exMap h ss hss⟩

theorem ElseChecked.exMap (h : ∀ e, P e → Q (f e)) : ∀ {loop : Bool} (o : Option TStatement),
    ElseChecked P loop o → ElseChecked Q loop (exMapElse f o)
  | _, none, _ => trivial
  | _, some s, hs => StmtChecked.exMap h s hs

end

end

/-- What checking a statement does to the tables: it adds local variables. -/
structure Grows (st st' : BindingState) : Prop where
  methodIndex : st'.methodIndex = st.methodIndex
  globalVarIndex : st'.globalVarIndex = st.globalVarIndex
  varIndex : st.varIndex <+: st'.varIndex
  withinLoop : st'.withinLoop = st.withinLoop

theorem Grows.refl (st : BindingState) : Grows st st := ⟨rfl, rfl, List.prefix_refl _, rfl⟩

theorem Grows.trans {st'' : BindingState} (h : Grows st st') (h' : Grows st' st'') :
    Grows st st'' where
  methodIndex := h'.methodIndex.trans h.methodIndex
  globalVarIndex := h'.globalVarIndex.trans h.globalVarIndex
  varIndex := h.varIndex.trans h'.varIndex
  withinLoop := h'.withinLoop.trans h.withinLoop

theorem Grows.extends (h : Grows st st') : Extends st st' where
  globals := h.globalVarIndex ▸ List.Subset.refl _
  locals := h.varIndex.subset
  methods m hm := ⟨m, h.methodIndex ▸ hm, rfl, rfl, rfl⟩

theorem addLocalVariable_ok {lvTyp : Typ} {lvNam : Ident} {varId : VariableID}
    (h : addLocalVariable lvTyp lvNam st = .ok (varId, st')) :
    Grows st st' ∧ ⟨varId, lvTyp⟩ ∈ st'.varIndex := by
  unfold addLocalVariable at h
  split at h
  · exact (nomatch h)
  · obtain ⟨u, -, h⟩ := bind_eq_ok.mp h
    obtain ⟨rfl, rfl⟩ := Prod.mk.inj (Except.ok.inj h)
    exact ⟨⟨rfl, rfl, List.prefix_append _ _, rfl⟩, List.mem_append_right _ List.mem_cons_self⟩

mutual

/-- What the type checker makes of a statement. -/
theorem buildTStatement_checked : ∀ (s : Statement) {st st' : BindingState} {t : TStatement},
    buildTStatement s st = .ok (t, st') →
      Grows st st' ∧ StmtChecked (WellTyped st') st.withinLoop t
  | .block stats, st, st', t, h => by
    simp only [buildTStatement, bind_eq_ok, Prod.exists] at h
    obtain ⟨tStats, st1, hstats, h⟩ := h
    obtain ⟨hgrow, hchecked⟩ := buildTStatements_checked stats hstats
    split at h
    · exact (nomatch h)
    · obtain ⟨rfl, rfl⟩ := Prod.mk.inj (Except.ok.inj h)
      have hsame : ∀ scopes, Extends st1 { st1 with varScopes := scopes } :=
        fun _ => .of_eq rfl rfl rfl
      exact ⟨⟨hgrow.methodIndex, hgrow.globalVarIndex, hgrow.varIndex, hgrow.withinLoop⟩,
        StmtsChecked.mono (WellTyped.extends (hsame _)) tStats hchecked⟩
  | .ifStatement expr thenBody elseBody, st, st', t, h => by
    simp only [buildTStatement, bind_eq_ok, Prod.exists] at h
    obtain ⟨e, he, e', he', tThen, st1, hthen, tElse, st2, helse, h⟩ := h
    obtain ⟨rfl, rfl⟩ := Prod.mk.inj (Except.ok.inj h)
    obtain ⟨-, hwell⟩ := booleanConvertCheck_typed (buildTExpression_wellTyped expr he) he'
    obtain ⟨hgrow1, ht⟩ := buildTStatement_checked thenBody hthen
    obtain ⟨hgrow2, hf⟩ := buildTElse_checked elseBody helse
    rw [hgrow1.withinLoop] at hf
    have hgrow := hgrow1.trans hgrow2
    exact ⟨hgrow, WellTyped.extends hgrow.extends _ hwell,
      StmtChecked.mono (WellTyped.extends hgrow2.extends) tThen ht, hf⟩
  | .whileStatement cond body, st, st', t, h => by
    simp only [buildTStatement, bind_eq_ok, Prod.exists] at h
    obtain ⟨c, hc, c', hc', tBody, st1, hbody, h⟩ := h
    obtain ⟨rfl, rfl⟩ := Prod.mk.inj (Except.ok.inj h)
    obtain ⟨-, hwell⟩ := booleanConvertCheck_typed (buildTExpression_wellTyped cond hc) hc'
    obtain ⟨hgrow1, hb⟩ := buildTStatement_checked body hbody
    have hgrow : Grows st { st1 with withinLoop := st.withinLoop } :=
      ⟨hgrow1.methodIndex, hgrow1.globalVarIndex, hgrow1.varIndex, rfl⟩
    have hsame : Extends st1 { st1 with withinLoop := st.withinLoop } := .of_eq rfl rfl rfl
    exact ⟨hgrow, WellTyped.extends hgrow.extends _ hwell,
      StmtChecked.mono (WellTyped.extends hsame) tBody hb⟩
  | .forStatement initializer cond iter body, st, st', t, h => by
    simp only [buildTStatement, bind_eq_ok, Prod.exists] at h
    obtain ⟨i, hi, c, hc, c', hc', it, hit, tBody, st1, hbody, h⟩ := h
    obtain ⟨rfl, rfl⟩ := Prod.mk.inj (Except.ok.inj h)
    obtain ⟨-, hwell⟩ := booleanConvertCheck_typed (buildTExpression_wellTyped cond hc) hc'
    obtain ⟨hgrow1, hb⟩ := buildTStatement_checked body hbody
    have hgrow : Grows st { st1 with withinLoop := st.withinLoop } :=
      ⟨hgrow1.methodIndex, hgrow1.globalVarIndex, hgrow1.varIndex, rfl⟩
    have hsame : Extends st1 { st1 with withinLoop := st.withinLoop } := .of_eq rfl rfl rfl
    have hlarger := WellTyped.extends hgrow.extends
    exact ⟨hgrow, hlarger _ (buildTExpression_wellTyped initializer hi), hlarger _ hwell,
      hlarger _ (buildTExpression_wellTyped iter hit),
      StmtChecked.mono (WellTyped.extends hsame) tBody hb⟩
  | .variableDeclarationStatement typ nam initializer, st, st', t, h => by
    simp only [buildTStatement] at h
    split at h
    · exact (nomatch h)
    obtain ⟨⟨varId, st1⟩, hadd, h⟩ := bind_eq_ok.mp h
    obtain ⟨hgrow, hmem⟩ := addLocalVariable_ok hadd
    cases initializer with
    | none =>
      obtain ⟨rfl, rfl⟩ := Prod.mk.inj (Except.ok.inj h)
      exact ⟨hgrow, trivial⟩
    | some expr =>
      simp only [bind_eq_ok] at h
      obtain ⟨e, he, e', he', h⟩ := h
      obtain ⟨rfl, rfl⟩ := Prod.mk.inj (Except.ok.inj h)
      obtain ⟨hty, hwell⟩ := typePromoteCheck_typed (buildTExpression_wellTyped expr he) he'
      exact ⟨hgrow, hmem, hty, hwell⟩
  | .expressionStatement expr, st, st', t, h => by
    simp only [buildTStatement, bind_eq_ok] at h
    obtain ⟨e, he, e', he', h⟩ := h
    obtain ⟨rfl, rfl⟩ := Prod.mk.inj (Except.ok.inj h)
    exact ⟨.refl _, (typePromoteCheck_typed (buildTExpression_wellTyped expr he) he').2⟩
  | .returnValueStatement expr, st, st', t, h => by
    simp only [buildTStatement, bind_eq_ok] at h
    obtain ⟨e, he, e', he', u, -, h⟩ := h
    obtain ⟨rfl, rfl⟩ := Prod.mk.inj (Except.ok.inj h)
    exact ⟨.refl _, (typePromoteCheck_typed (buildTExpression_wellTyped expr he) he').2⟩
  | .returnStatement, st, st', t, h => by
    obtain ⟨u, -, h⟩ := bind_eq_ok.mp h
    obtain ⟨rfl, rfl⟩ := Prod.mk.inj (Except.ok.inj h)
    exact ⟨.refl _, trivial⟩
  | .exitStatement, st, st', t, h => by
    obtain ⟨rfl, rfl⟩ := Prod.mk.inj (Except.ok.inj h)
    exact ⟨.refl _, trivial⟩
  | .breakStatement, st, st', t, h => by
    obtain ⟨u, hloop, h⟩ := bind_eq_ok.mp h
    obtain ⟨rfl, rfl⟩ := Prod.mk.inj (Except.ok.inj h)
    exact ⟨.refl _, guardError_ok.mp hloop⟩
  | .continueStatement, st, st', t, h => by
    obtain ⟨u, hloop, h⟩ := bind_eq_ok.mp h
    obtain ⟨rfl, rfl⟩ := Prod.mk.inj (Except.ok.inj h)
    exact ⟨.refl _, guardError_ok.mp hloop⟩

theorem buildTStatements_checked : ∀ (ss : List Statement) {st st' : BindingState}
    {ts : List TStatement}, buildTStatements ss st = .ok (ts, st') →
      Grows st st' ∧ StmtsChecked (WellTyped st') st.withinLoop ts
  | [], st, st', ts, h => by
    obtain ⟨rfl, rfl⟩ := Prod.mk.inj (Except.ok.inj h)
    exact ⟨.refl _, trivial⟩
  | s :: ss, st, st', ts, h => by
    simp only [buildTStatements, bind_eq_ok, Prod.exists] at h
    obtain ⟨t, st1, hs, ts', st2, hss, h⟩ := h
    obtain ⟨rfl, rfl⟩ := Prod.mk.inj (Except.ok.inj h)
    obtain ⟨hgrow1, ht⟩ := buildTStatement_checked s hs
    obtain ⟨hgrow2, hts⟩ := buildTStatements_checked ss hss
    rw [hgrow1.withinLoop] at hts
    exact ⟨hgrow1.trans hgrow2, StmtChecked.mono (WellTyped.extends hgrow2.extends) t ht, hts⟩

theorem buildTElse_checked : ∀ (o : Option Statement) {st st' : BindingState}
    {t : Option TStatement}, buildTElse o st = .ok (t, st') →
      Grows st st' ∧ ElseChecked (WellTyped st') st.withinLoop t
  | none, st, st', t, h => by
    obtain ⟨rfl, rfl⟩ := Prod.mk.inj (Except.ok.inj h)
    exact ⟨.refl _, trivial⟩
  | some s, st, st', t, h => by
    simp only [buildTElse, bind_eq_ok, Prod.exists] at h
    obtain ⟨t', st1, hs, h⟩ := h
    obtain ⟨rfl, rfl⟩ := Prod.mk.inj (Except.ok.inj h)
    exact buildTStatement_checked s hs

end

/-! ## Programs -/

/-- The tables in which a method of a program stands. -/
def TProgram.tables (p : TProgram) (m : TMethod) : BindingState where
  methodIndex := p.methods
  methodScope := p.methodScope
  globalVarIndex := p.vars
  globalVarScope := p.varScope
  varIndex := m.vars
  varScopes := [m.scope]
  returnType := m.retType
  withinLoop := false

/-- Methods have the numbers of their places. -/
def TProgram.Numbered (p : TProgram) : Prop := ∀ i (m : TMethod), p.methods[i]? = some m → m.id = i

/-- The methods are numbered and their bodies are checked. -/
structure TProgram.Checked (p : TProgram) : Prop where
  numbered : p.Numbered
  bodies : ∀ m ∈ p.methods, StmtsChecked (WellTyped (p.tables m)) false m.body

/-- Skeletons: numbered methods without bodies. -/
structure TProgram.Skeleton (p : TProgram) : Prop where
  numbered : p.Numbered
  bodies : ∀ m ∈ p.methods, m.body = []

theorem addToProgram_skeleton {p p' : TProgram} {dec : Declaration} (hp : p.Skeleton)
    (h : addToProgram p dec = .ok p') : p'.Skeleton := by
  cases dec with
  | methodDeclaration typ nam args body =>
    simp only [addToProgram] at h
    split at h
    · exact (nomatch h)
    · obtain rfl := Except.ok.inj h
      refine ⟨fun i m hm => ?_, fun m hm => ?_⟩
      · rw [List.getElem?_append] at hm
        split at hm
        · exact hp.numbered i m hm
        · next hge =>
          obtain ⟨hlt, rfl⟩ := List.getElem?_eq_some_iff.mp hm
          rw [List.length_singleton] at hlt
          rw [List.getElem_singleton]
          show p.methods.length = i
          omega
      · rcases List.mem_append.mp hm with hm | hm
        · exact hp.bodies m hm
        · rw [List.mem_singleton.mp hm]
  | globalVariableDeclaration typ nam =>
    simp only [addToProgram] at h
    split at h
    · exact (nomatch h)
    · obtain rfl := Except.ok.inj h
      exact ⟨hp.numbered, hp.bodies⟩

/-- What every declaration keeps, all of them keep. -/
theorem foldlM_keeps {α : Type} {I : α → Prop} {step : α → Declaration → ThrowsError α}
    (hstep : ∀ a dec a', I a → step a dec = .ok a' → I a') : ∀ (decs : List Declaration) {a a' : α},
      I a → decs.foldlM step a = .ok a' → I a'
  | [], a, a', ha, h => by
    obtain rfl := Except.ok.inj h
    exact ha
  | dec :: decs, a, a', ha, h => by
    rw [List.foldlM_cons] at h
    obtain ⟨a1, h1, h⟩ := bind_eq_ok.mp h
    exact foldlM_keeps hstep decs (hstep a dec a1 ha h1) h

theorem scanDecs_checked {decs : List Declaration} {p : TProgram} (h : scanDecs decs = .ok p) :
    p.Checked := by
  have hempty : TProgram.Skeleton ⟨[], [], [], []⟩ := ⟨fun _ _ hm => (nomatch hm), fun _ hm => (nomatch hm)⟩
  have hp := foldlM_keeps (fun _ _ _ => addToProgram_skeleton) decs hempty h
  refine ⟨hp.numbered, fun m hm => ?_⟩
  rw [hp.bodies m hm]
  exact trivial

/-- The methods keep their signatures when one of them gets its body. -/
theorem tables_set {p : TProgram} {i : Nat} {m new m0 : TMethod} (hm : p.methods[i]? = some m)
    (hid : new.id = m.id) (hret : new.retType = m.retType) (hargs : new.argTypes = m.argTypes) :
    Extends (p.tables m0) ({ p with methods := p.methods.set i new }.tables m0) := by
  refine ⟨List.Subset.refl _, List.Subset.refl _, fun m1 hm1 => ?_⟩
  obtain ⟨j, hj⟩ := List.mem_iff_getElem?.mp hm1
  show ∃ m' ∈ p.methods.set i new, _
  by_cases hji : j = i
  · subst hji
    obtain rfl : m1 = m := Option.some.inj (hj.symm.trans hm)
    have hlt := (List.getElem?_eq_some_iff.mp hm).1
    exact ⟨new, List.mem_of_getElem? (List.getElem?_set_self hlt), hid, hret, hargs⟩
  · exact ⟨m1, List.mem_of_getElem? ((List.getElem?_set_ne (Ne.symm hji)).trans hj), rfl, rfl, rfl⟩

theorem buildTMethod_checked {p p' : TProgram} {dec : Declaration} (hp : p.Checked)
    (h : buildTMethod p dec = .ok p') : p'.Checked := by
  cases dec with
  | globalVariableDeclaration typ nam =>
    obtain rfl := Except.ok.inj h
    exact hp
  | methodDeclaration typ nam args body =>
    simp only [buildTMethod, bind_eq_ok, Prod.exists, maybeToError_ok] at h
    obtain ⟨u, -, methodId, -, m, hm, tStats, st, hbody, h⟩ := h
    split at h
    case h_2 => exact (nomatch h)
    case h_1 scope _ =>
    obtain rfl := Except.ok.inj h
    have hid := hp.numbered methodId m hm
    obtain ⟨hgrow, hchecked⟩ := buildTStatements_checked body hbody
    have hlarger : ∀ m0 : TMethod, Extends (p.tables m0) (TProgram.tables { p with
        methods := p.methods.set methodId
          ⟨methodId, m.retType, m.argTypes, st.varIndex, scope, tStats⟩ } m0) :=
      fun _ => tables_set hm hid.symm rfl rfl
    refine ⟨fun i m' hm' => ?_, fun m' hm' => ?_⟩
    · rw [List.getElem?_set] at hm'
      split at hm'
      · next heq =>
        obtain ⟨-, rfl⟩ := Option.ite_some_none_eq_some.mp hm'
        exact heq
      · exact hp.numbered i m' hm'
    · rcases List.mem_or_eq_of_mem_set hm' with hold | rfl
      · exact StmtsChecked.mono (WellTyped.extends (hlarger m')) _ (hp.bodies m' hold)
      · refine StmtsChecked.mono (WellTyped.extends ?_) _ hchecked
        have hsame : Extends st (p.tables ⟨methodId, m.retType, m.argTypes, st.varIndex, scope, tStats⟩) :=
          .of_eq hgrow.methodIndex.symm hgrow.globalVarIndex.symm rfl
        exact hsame.trans (hlarger _)

/-- **A program that the type checker accepts** has numbered methods with checked bodies. -/
theorem buildTProgram_checked {decs : List Declaration} {p : TProgram}
    (h : buildTProgram decs = .ok p) : p.Checked := by
  obtain ⟨p0, hscan, h⟩ := bind_eq_ok.mp h
  exact foldlM_keeps (fun _ _ _ => buildTMethod_checked) decs (scanDecs_checked hscan) h

/-! ## Folding a program -/

/-- The parts of a well-typed expression are well-typed. -/
theorem WellTyped.parts {q : Bool × TExpression} (h : WellTyped st e) (hq : q ∈ parts e) :
    WellTyped st q.2 := by
  have hargs : ∀ (es : List TExpression), WellTypedArgs st es →
      q ∈ es.map (fun e => (false, e)) → WellTyped st q.2 := by
    intro es
    induction es with
    | nil => exact fun _ hq => (nomatch hq)
    | cons e es ih =>
      rintro ⟨he, hes⟩ hq
      rcases List.mem_cons.mp hq with rfl | hq
      · exact he
      · exact ih hes hq
  cases e with
  | globalLoad | localLoad | shortLiteral | byteLiteral => exact (nomatch hq)
  | methodCall t i args =>
    obtain ⟨_, _, _, _, _, hwell⟩ := h
    exact hargs args hwell hq
  | syscall t op args =>
    obtain ⟨_, _, _, _, hwell⟩ := h
    exact hargs args hwell hq
  | binaryExpression t l op r =>
    obtain ⟨_, _, _, _, hl, hr⟩ := h
    rcases List.mem_cons.mp hq with rfl | hq
    · exact hl
    · exact List.mem_singleton.mp hq ▸ hr
  | globalStore | localStore | typeConversion =>
    obtain ⟨_, _, he⟩ := h
    exact List.mem_singleton.mp hq ▸ he
  | prefixExpression =>
    obtain ⟨_, _, _, _, he⟩ := h
    exact List.mem_singleton.mp hq ▸ he
  | postfixExpression =>
    obtain ⟨_, _, _, he⟩ := h
    exact List.mem_singleton.mp hq ▸ he
  | booleanConversion =>
    obtain ⟨_, he⟩ := h
    exact List.mem_singleton.mp hq ▸ he

/-- Folding an expression keeps its type and its being well-typed, and no two zeros are compared in
    the result. -/
def FoldsTyped (st : BindingState) (e : TExpression) : Prop :=
  WellTyped st e ∧ WellTyped st (constantEval e) ∧ typeOf (constantEval e) = typeOf e ∧
    NoZeroComparison (constantEval e)

/-- So it does with a well-typed expression and all its parts. -/
theorem WellTyped.foldsTyped (e : TExpression) : ∀ {pos : Bool}, WellTyped st e →
    EveryPart (fun _ => FoldsTyped st) pos e := by
  induction e using parts_induction with
  | step e ih =>
    intro pos h
    obtain ⟨hty, hwell⟩ := constantEval_wellTyped e h
    exact ⟨⟨h, hwell, hty, constantEval_noZero e h⟩, fun q hq => ih q hq (h.parts hq)⟩

end KeyboardFirmware.Compiler
