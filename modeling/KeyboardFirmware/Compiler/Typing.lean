/-
  The types of expressions, before and after folding.

  The type checker annotates every operator, access and call with the type of its result.
  `WellTyped` says that the annotations agree with the operands, the variables and the signatures of
  the methods: so they do in what the type checker makes (`buildTExpression_wellTyped`), and folding
  keeps this and the type (`constantEval_wellTyped`).
-/
import KeyboardFirmware.Compiler.FoldSound

namespace KeyboardFirmware.Compiler

/-- A variable, of either kind. -/
def isLoad : TExpression → Bool
  | .globalLoad _ _ | .localLoad _ _ => true
  | _ => false

/-- `++` and `--`. -/
def PrefixOp.isStep : PrefixOp → Bool
  | .preincrement | .predecrement => true
  | _ => false

/-- The type that an operator gives on operands of the type `t`. -/
def resultType (t : Typ) (op : BinaryOp) : Typ :=
  if op.isLogical then .byte else outType t op

mutual

/-- The annotations agree with the parts and with the tables of `st`. -/
def WellTyped (st : BindingState) : TExpression → Prop
  | .globalStore t i e => ⟨i, t⟩ ∈ st.globalVarIndex ∧ typeOf e = t ∧ WellTyped st e
  | .localStore t i e => ⟨i, t⟩ ∈ st.varIndex ∧ typeOf e = t ∧ WellTyped st e
  | .globalLoad t i => ⟨i, t⟩ ∈ st.globalVarIndex
  | .localLoad t i => ⟨i, t⟩ ∈ st.varIndex
  | .prefixExpression t op e => typeOf e = t ∧ t ≠ .void ∧ (op = .not → t = .byte) ∧
      (op.isStep = true → isLoad e = true) ∧ WellTyped st e
  | .postfixExpression t e _ => typeOf e = t ∧ t ≠ .void ∧ isLoad e = true ∧ WellTyped st e
  | .binaryExpression t lhs op rhs => t = resultType (typeOf lhs) op ∧ typeOf rhs = typeOf lhs ∧
      typeOf lhs ≠ .void ∧ (op.isLogical = true → typeOf lhs = .byte) ∧ WellTyped st lhs ∧
      WellTyped st rhs
  | .shortLiteral _ => True
  | .byteLiteral _ => True
  | .methodCall t i args => ∃ m ∈ st.methodIndex, m.id = i ∧ m.retType = t ∧
      args.map typeOf = m.argTypes ∧ WellTypedArgs st args
  | .syscall t op args => ∃ nam argTypes, (nam, op, t, argTypes) ∈ syscalls ∧
      args.map typeOf = argTypes ∧ WellTypedArgs st args
  | .typeConversion t e => typeOf e ≠ t ∧ (t ≠ .void → typeOf e ≠ .void) ∧ WellTyped st e
  | .booleanConversion e => typeOf e = .short ∧ WellTyped st e

/-- Every one of some expressions is well-typed. -/
def WellTypedArgs (st : BindingState) : List TExpression → Prop
  | [] => True
  | e :: es => WellTyped st e ∧ WellTypedArgs st es

end

variable {st : BindingState} {t u : Typ} {e e' : TExpression}

/-! ## The type checker -/

theorem valueTypeCheck_ok (h : valueTypeCheck e = .ok e') : e' = e ∧ typeOf e ≠ .void := by
  unfold valueTypeCheck at h
  split at h
  · exact (nomatch h)
  · next hvoid => exact ⟨(Except.ok.inj h).symm, hvoid⟩

theorem typePromoteCheck_typed (he : WellTyped st e) (h : typePromoteCheck t e = .ok e') :
    typeOf e' = t ∧ WellTyped st e' := by
  unfold typePromoteCheck at h
  split at h
  · next heq =>
    obtain rfl := Except.ok.inj h
    exact ⟨heq.symm, he⟩
  · split at h
    · next hne hrank =>
      obtain rfl := Except.ok.inj h
      refine ⟨rfl, fun heq => hne heq.symm, fun ht hvoid => ?_, he⟩
      rw [hvoid] at hrank
      cases t with
      | void => exact ht rfl
      | byte | short => exact absurd hrank (by decide)
    · exact (nomatch h)

theorem typeCastCheck_typed (he : WellTyped st e) (h : typeCastCheck t e = .ok e') :
    typeOf e' = t ∧ WellTyped st e' := by
  unfold typeCastCheck at h
  split at h
  · next heq =>
    obtain rfl := Except.ok.inj h
    exact ⟨heq.symm, he⟩
  · next hne =>
    split at h
    · next hvoid =>
      obtain rfl := Except.ok.inj h
      exact ⟨rfl, fun heq => hne heq.symm, fun ht => absurd hvoid ht, he⟩
    · split at h
      · exact (nomatch h)
      · next hnot =>
        obtain rfl := Except.ok.inj h
        exact ⟨rfl, fun heq => hne heq.symm, fun _ => hnot, he⟩

theorem booleanConvertCheck_typed (he : WellTyped st e) (h : booleanConvertCheck e = .ok e') :
    typeOf e' = .byte ∧ WellTyped st e' := by
  simp only [booleanConvertCheck, bind_eq_ok] at h
  obtain ⟨e1, he1, h⟩ := h
  obtain ⟨rfl, hvoid⟩ := valueTypeCheck_ok he1
  obtain rfl := Except.ok.inj h
  split
  · next hbyte => exact ⟨hbyte, he⟩
  · next hbyte =>
    refine ⟨rfl, ?_, he⟩
    cases ht : typeOf e1 with
    | byte => exact absurd ht hbyte
    | short => rfl
    | void => exact absurd ht hvoid

/-! ## Tables -/

theorem lookupLocalVar_mem {nam : Ident} {v : TVariable} (h : lookupLocalVar st nam = .ok v) :
    v ∈ st.varIndex := by
  obtain ⟨i, -, h⟩ := bind_eq_ok.mp h
  exact List.mem_of_getElem? (maybeToError_ok.mp h)

theorem lookupGlobalVar_mem {nam : Ident} {v : TVariable} (h : lookupGlobalVar st nam = .ok v) :
    v ∈ st.globalVarIndex := by
  obtain ⟨i, -, h⟩ := bind_eq_ok.mp h
  exact List.mem_of_getElem? (maybeToError_ok.mp h)

theorem lookupMethod_mem {nam : Ident} {m : TMethod} (h : lookupMethod st nam = .ok m) :
    m ∈ st.methodIndex := by
  obtain ⟨i, -, h⟩ := bind_eq_ok.mp h
  exact List.mem_of_getElem? (maybeToError_ok.mp h)

/-! ## What the type checker builds -/

/-- The operands of an operator are given the larger of their types. -/
theorem buildTExpression_operator {x y : Expression} {op : BinaryOp}
    (hop : op.isLogical = false) (h : buildTExpression st (.binaryExpression x op y) = .ok e) :
    ∃ a b lhs rhs, buildTExpression st x = .ok a ∧ buildTExpression st y = .ok b ∧
      typePromoteCheck ((typeOf a).max (typeOf b)) a = .ok lhs ∧
      typePromoteCheck ((typeOf a).max (typeOf b)) b = .ok rhs ∧ (typeOf a).max (typeOf b) ≠ .void ∧
      e = .binaryExpression (outType ((typeOf a).max (typeOf b)) op) lhs op rhs := by
  simp only [buildTExpression, bind_eq_ok] at h
  obtain ⟨a, ha, h⟩ := h
  rw [if_neg (by simp [hop])] at h
  simp only [bind_eq_ok] at h
  obtain ⟨a1, ha1, b, hb, b1, hb1, lhs, hlhs, rhs, hrhs, h⟩ := h
  obtain rfl := Except.ok.inj h
  obtain ⟨rfl, hat⟩ := valueTypeCheck_ok ha1
  obtain ⟨rfl, hbt⟩ := valueTypeCheck_ok hb1
  have hmax : (typeOf a1).max (typeOf b1) ≠ .void := by
    unfold Typ.max
    split
    · exact hbt
    · exact hat
  exact ⟨a1, b1, lhs, rhs, ha, hb, hlhs, hrhs, hmax, rfl⟩

/-- A prefix operator other than `!` that is not part of a literal. -/
theorem buildTExpression_prefix {op : PrefixOp} {x : Expression} (hop : op ≠ .not)
    (hlit : ¬ (op = .minus ∧ ((∃ s, x = .shortLiteral s) ∨ ∃ b, x = .byteLiteral b)))
    (h : buildTExpression st (.prefixExpression op x) = .ok e) :
    ∃ a, buildTExpression st x = .ok a ∧ typeOf a ≠ .void ∧
      (op.isStep = true → ∃ nam, x = .variableAccess nam) ∧
      e = .prefixExpression (typeOf a) op a := by
  rw [buildTExpression] at h
  rotate_left
  · exact hop
  · exact fun s hm hx => hlit ⟨hm, .inl ⟨s, hx⟩⟩
  · exact fun b hm hx => hlit ⟨hm, .inr ⟨b, hx⟩⟩
  have hlvalue : ∀ {u}, lvalueCheck x = .ok u → ∃ nam, x = .variableAccess nam := by
    intro u hx
    cases x with
    | variableAccess nam => exact ⟨nam, rfl⟩
    | _ => exact (nomatch hx)
  have hrest : (op.isStep = true → ∃ nam, x = .variableAccess nam) ∧
      ∃ a a', buildTExpression st x = .ok a ∧ valueTypeCheck a = .ok a' ∧
        .ok (.prefixExpression (typeOf a') op a') = (.ok e : ThrowsError TExpression) := by
    split at h
    · obtain ⟨u, hu, h⟩ := bind_eq_ok.mp h
      exact ⟨fun _ => hlvalue hu, by simpa only [bind_eq_ok, exists_and_left] using h⟩
    · next hstep =>
      refine ⟨fun hs => absurd ?_ hstep, by simpa only [bind_eq_ok, exists_and_left] using h⟩
      cases op <;> simp_all [PrefixOp.isStep]
  obtain ⟨hstep, a, a', ha, ha', h⟩ := hrest
  obtain ⟨rfl, hvoid⟩ := valueTypeCheck_ok ha'
  exact ⟨a', ha, hvoid, hstep, (Except.ok.inj h).symm⟩

/-- A variable is looked up among the locals, and then among the globals. -/
theorem buildTExpression_variable {nam : Ident}
    (h : buildTExpression st (.variableAccess nam) = .ok e) :
    (∃ v ∈ st.varIndex, e = .localLoad v.typ v.id) ∨
      ∃ v ∈ st.globalVarIndex, e = .globalLoad v.typ v.id := by
  rcases orTry_eq_ok h with h | h
  · obtain ⟨v, hv, h⟩ := bind_eq_ok.mp h
    exact .inl ⟨v, lookupLocalVar_mem hv, (Except.ok.inj h).symm⟩
  · rcases orTry_eq_ok h with h | h
    · obtain ⟨v, hv, h⟩ := bind_eq_ok.mp h
      exact .inr ⟨v, lookupGlobalVar_mem hv, (Except.ok.inj h).symm⟩
    · exact (nomatch h)

theorem isLoad_of_variable {nam : Ident} (h : buildTExpression st (.variableAccess nam) = .ok e) :
    isLoad e = true := by
  obtain ⟨v, -, rfl⟩ | ⟨v, -, rfl⟩ := buildTExpression_variable h
  · rfl
  · rfl

theorem buildTArgs_length (xs : List Expression) {es : List TExpression}
    (h : buildTArgs st xs = .ok es) : es.length = xs.length := by
  induction xs generalizing es with
  | nil =>
    obtain rfl := Except.ok.inj h
    rfl
  | cons x xs ih =>
    simp only [buildTArgs, bind_eq_ok] at h
    obtain ⟨e, he, es', hes, h⟩ := h
    obtain rfl := Except.ok.inj h
    rw [List.length_cons, ih hes, List.length_cons]

theorem promoteArgs_typed : ∀ (ts : List Typ) (es : List TExpression) {es' : List TExpression},
    ts.length = es.length → WellTypedArgs st es →
      (ts.zip es).mapM (fun a => typePromoteCheck a.1 a.2) = .ok es' →
        es'.map typeOf = ts ∧ WellTypedArgs st es'
  | [], [], es', _, _, h => by
    obtain rfl := Except.ok.inj h
    exact ⟨rfl, trivial⟩
  | [], _ :: _, _, hlen, _, _ => by exact (nomatch hlen)
  | _ :: _, [], _, hlen, _, _ => by exact (nomatch hlen)
  | t :: ts, e :: es, es', hlen, hes, h => by
    simp only [List.zip_cons_cons, List.mapM_cons, bind_eq_ok] at h
    obtain ⟨a, ha, as, has, h⟩ := h
    obtain rfl := Except.ok.inj h
    obtain ⟨hat, ha'⟩ := typePromoteCheck_typed hes.1 ha
    obtain ⟨hast, has'⟩ := promoteArgs_typed ts es (Nat.succ.inj hlen) hes.2 has
    exact ⟨by rw [List.map_cons, hat, hast], ha', has'⟩

/-- What a name called with arguments stands for: a method, or a system call. -/
theorem resolveInvocation_ok {nam : Ident} {constr : List TExpression → TExpression} {ts : List Typ}
    (h : resolveInvocation st nam = .ok (constr, ts)) :
    (∃ m ∈ st.methodIndex, constr = .methodCall m.retType m.id ∧ ts = m.argTypes) ∨
      ∃ nam op t, (nam, op, t, ts) ∈ syscalls ∧ constr = .syscall t op := by
  rcases orTry_eq_ok h with h | h
  · obtain ⟨m, hm, h⟩ := bind_eq_ok.mp h
    obtain ⟨rfl, rfl⟩ := Prod.mk.inj (Except.ok.inj h)
    exact .inl ⟨m, lookupMethod_mem hm, rfl, rfl⟩
  · obtain ⟨⟨op, t, ts'⟩, hsys, h⟩ := bind_eq_ok.mp h
    obtain ⟨rfl, rfl⟩ := Prod.mk.inj (Except.ok.inj h)
    rw [maybeToError_ok] at hsys
    obtain ⟨l1, l2, heq, -⟩ := List.lookup_eq_some_iff.mp hsys
    exact .inr ⟨nam, op, t, heq ▸ List.mem_append_right l1 List.mem_cons_self, rfl⟩

mutual

/-- **The type checker** builds well-typed expressions. -/
theorem buildTExpression_wellTyped : ∀ (x : Expression) {e : TExpression},
    buildTExpression st x = .ok e → WellTyped st e
  | .shortLiteral val, e, h => by
    obtain rfl := Except.ok.inj h
    exact trivial
  | .byteLiteral val, e, h => by
    obtain rfl := Except.ok.inj h
    exact trivial
  | .variableAccess nam, e, h => by
    obtain ⟨v, hv, rfl⟩ | ⟨v, hv, rfl⟩ := buildTExpression_variable h
    · exact hv
    · exact hv
  | .methodInvocation nam args, e, h => by
    simp only [buildTExpression, bind_eq_ok] at h
    obtain ⟨⟨constr, ts⟩, hc, u, hlen, tArgs, hargs, tArgs', hpro, h⟩ := h
    obtain rfl := Except.ok.inj h
    have hlen' : ts.length = args.length := by simpa using guardError_ok.mp hlen
    obtain ⟨hts, hargs'⟩ := promoteArgs_typed ts tArgs (hlen'.trans (buildTArgs_length args hargs).symm)
      (buildTArgs_wellTyped args hargs) hpro
    obtain ⟨m, hm, rfl, rfl⟩ | ⟨nam, op, t, hsys, rfl⟩ := resolveInvocation_ok hc
    · exact ⟨m, hm, rfl, rfl, hts, hargs'⟩
    · exact ⟨nam, ts, hsys, hts, hargs'⟩
  | .assignment lhs rhs, e, h => by
    cases lhs with
    | variableAccess nam =>
      simp only [buildTExpression, bind_eq_ok, Prod.exists] at h
      obtain ⟨tStor, typ, hstor, a, ha, a', ha', h⟩ := h
      obtain rfl := Except.ok.inj h
      obtain ⟨hty, hwell⟩ := typePromoteCheck_typed (buildTExpression_wellTyped rhs ha) ha'
      rcases orTry_eq_ok hstor with h | h
      · obtain ⟨v, hv, h⟩ := bind_eq_ok.mp h
        obtain ⟨rfl, rfl⟩ := Prod.mk.inj (Except.ok.inj h)
        exact ⟨lookupLocalVar_mem hv, hty, hwell⟩
      · rcases orTry_eq_ok h with h | h
        · obtain ⟨v, hv, h⟩ := bind_eq_ok.mp h
          obtain ⟨rfl, rfl⟩ := Prod.mk.inj (Except.ok.inj h)
          exact ⟨lookupGlobalVar_mem hv, hty, hwell⟩
        · exact (nomatch h)
    | _ => exact (nomatch h)
  | .typeCast t x, e, h => by
    obtain ⟨a, ha, h⟩ := bind_eq_ok.mp h
    exact (typeCastCheck_typed (buildTExpression_wellTyped x ha) h).2
  | .postfixExpression x op, e, h => by
    simp only [buildTExpression, bind_eq_ok] at h
    obtain ⟨u, hx, a, ha, a', ha', h⟩ := h
    obtain rfl := Except.ok.inj h
    obtain ⟨rfl, hvoid⟩ := valueTypeCheck_ok ha'
    refine ⟨rfl, hvoid, ?_, buildTExpression_wellTyped x ha⟩
    cases x with
    | variableAccess nam => exact isLoad_of_variable ha
    | _ => exact (nomatch hx)
  | .binaryExpression l op r, e, h => by
    cases hop : op.isLogical with
    | true =>
      simp only [buildTExpression, hop, if_true, bind_eq_ok] at h
      obtain ⟨a, ha, a', ha', b, hb, b', hb', h⟩ := h
      obtain rfl := Except.ok.inj h
      obtain ⟨hat, hl⟩ := booleanConvertCheck_typed (buildTExpression_wellTyped l ha) ha'
      obtain ⟨hbt, hr⟩ := booleanConvertCheck_typed (buildTExpression_wellTyped r hb) hb'
      refine ⟨by rw [resultType, if_pos hop], hbt.trans hat.symm, ?_, fun _ => hat, hl, hr⟩
      rw [hat]
      decide
    | false =>
      obtain ⟨a, b, lhs, rhs, ha, hb, hlhs, hrhs, hmax, rfl⟩ := buildTExpression_operator hop h
      obtain ⟨hlt, hl⟩ := typePromoteCheck_typed (buildTExpression_wellTyped l ha) hlhs
      obtain ⟨hrt, hr⟩ := typePromoteCheck_typed (buildTExpression_wellTyped r hb) hrhs
      refine ⟨?_, hrt.trans hlt.symm, hlt ▸ hmax, fun hlogical => ?_, hl, hr⟩
      · rw [hlt, resultType, hop, if_neg Bool.false_ne_true]
      · exact absurd (hop.symm.trans hlogical) Bool.false_ne_true
  | .prefixExpression op x, e, h => by
    by_cases hop : op = .not
    · subst hop
      simp only [buildTExpression, bind_eq_ok] at h
      obtain ⟨a, ha, a', ha', h⟩ := h
      obtain rfl := Except.ok.inj h
      obtain ⟨hat, hwell⟩ := booleanConvertCheck_typed (buildTExpression_wellTyped x ha) ha'
      exact ⟨hat, by decide, fun _ => rfl, fun hstep => (nomatch hstep), hwell⟩
    · by_cases hlit : op = .minus ∧ ((∃ s, x = .shortLiteral s) ∨ ∃ b, x = .byteLiteral b)
      · obtain ⟨rfl, ⟨s, rfl⟩ | ⟨b, rfl⟩⟩ := hlit
        · obtain rfl := Except.ok.inj h
          exact trivial
        · obtain rfl := Except.ok.inj h
          exact trivial
      · obtain ⟨a, ha, hvoid, hstep, rfl⟩ := buildTExpression_prefix hop hlit h
        refine ⟨rfl, hvoid, fun hnot => absurd hnot hop, fun hs => ?_, buildTExpression_wellTyped x ha⟩
        obtain ⟨nam, rfl⟩ := hstep hs
        exact isLoad_of_variable ha

theorem buildTArgs_wellTyped : ∀ (xs : List Expression) {es : List TExpression},
    buildTArgs st xs = .ok es → WellTypedArgs st es
  | [], es, h => by
    obtain rfl := Except.ok.inj h
    exact trivial
  | x :: xs, es, h => by
    simp only [buildTArgs, bind_eq_ok] at h
    obtain ⟨e, he, es', hes, h⟩ := h
    obtain rfl := Except.ok.inj h
    exact ⟨buildTExpression_wellTyped x he, buildTArgs_wellTyped xs hes⟩

end

/-! ## Folding -/

/-- A prefix operator on a literal gives a literal of its type. -/
theorem evalPrefix_typed {op : PrefixOp} (h : evalPrefix op e = some e') :
    typeOf e' = typeOf e ∧ WellTyped st e' := by
  obtain ⟨v, hv⟩ := evalPrefix_inv h
  cases e with
  | byteLiteral | shortLiteral =>
    cases op <;> cases h <;> exact ⟨rfl, trivial⟩
  | _ => exact (nomatch hv)

theorem evalConversion_typed (hne : typeOf e ≠ t) (hvoid : t ≠ .void → typeOf e ≠ .void)
    (he : WellTyped st e) : typeOf (evalConversion t e) = t ∧ WellTyped st (evalConversion t e) := by
  have hconv : typeOf (.typeConversion t e) = t ∧ WellTyped st (.typeConversion t e) :=
    ⟨rfl, hne, hvoid, he⟩
  cases t with
  | void => cases e <;> exact hconv
  | byte => cases e <;> first | exact hconv | exact ⟨rfl, trivial⟩
  | short => cases e <;> first | exact hconv | exact ⟨rfl, trivial⟩

theorem evalBoolean_typed (ht : typeOf e = .short) (he : WellTyped st e) :
    typeOf (evalBoolean e) = .byte ∧ WellTyped st (evalBoolean e) := by
  cases e <;> first | exact ⟨rfl, trivial⟩ | exact ⟨rfl, ht, he⟩

theorem evalArith_comparison {n : Nat} {op : BinaryOp} (hop : op.isComparison = true) (a b : BitVec n) :
    evalArith a op b = none := by
  cases op <;> cases hop <;> rfl

theorem evalComparison_arith {n : Nat} {op : BinaryOp} (hop : op.isComparison = false)
    (a b : BitVec n) : evalComparison a op b = none := by
  cases op <;> cases hop <;> rfl

/-- A binary operator on literals gives a literal of the result type. -/
theorem evalBinary_typed {op : BinaryOp} {l r : TExpression} (hr : typeOf r = typeOf l)
    (h : evalBinary l op r = some e) : typeOf e = resultType (typeOf l) op ∧ WellTyped st e := by
  unfold resultType outType
  cases hop : op.isLogical with
  | true =>
    obtain ⟨a, rfl⟩ := evalBinary_logical_inv hop h
    rw [evalBinary_logical hop] at h
    split at h
    · obtain rfl := Option.some.inj h
      exact ⟨rfl, trivial⟩
    · split at h
      · obtain rfl := Option.some.inj h
        exact ⟨rfl, trivial⟩
      · exact (nomatch h)
  | false =>
    obtain ⟨x, y, hx, hy⟩ := evalBinary_arith_inv hop h
    cases l with
    | byteLiteral a =>
      cases r with
      | byteLiteral b =>
        rw [evalBinary_bytes _ _ hop] at h
        obtain ⟨w, rfl⟩ : ∃ w, e = .byteLiteral w := by
          rcases Option.or_eq_some_iff.mp h with h | ⟨-, h⟩
          · obtain ⟨w, -, rfl⟩ := Option.map_eq_some_iff.mp h
            exact ⟨w, rfl⟩
          · obtain ⟨w, -, rfl⟩ := Option.map_eq_some_iff.mp h
            exact ⟨_, rfl⟩
        refine ⟨?_, trivial⟩
        rw [if_neg Bool.false_ne_true]
        split <;> rfl
      | shortLiteral => exact (nomatch hr)
      | _ => exact (nomatch hy)
    | shortLiteral a =>
      cases r with
      | shortLiteral b =>
        rw [evalBinary_shorts] at h
        cases hcmp : op.isComparison with
        | true =>
          rw [evalArith_comparison hcmp, Option.map_none, Option.none_or] at h
          obtain ⟨w, -, rfl⟩ := Option.map_eq_some_iff.mp h
          exact ⟨rfl, trivial⟩
        | false =>
          rw [evalComparison_arith hcmp, Option.map_none, Option.or_none] at h
          obtain ⟨w, -, rfl⟩ := Option.map_eq_some_iff.mp h
          exact ⟨rfl, trivial⟩
      | byteLiteral => exact (nomatch hr)
      | _ => exact (nomatch hy)
    | _ => exact (nomatch hx)

mutual

/-- **Folding** keeps the type of an expression, and leaves it well-typed. -/
theorem constantEval_wellTyped : ∀ (e : TExpression), WellTyped st e →
    typeOf (constantEval e) = typeOf e ∧ WellTyped st (constantEval e)
  | .globalStore t i e, ⟨hi, ht, he⟩ => by
    obtain ⟨hty, hwell⟩ := constantEval_wellTyped e he
    exact ⟨rfl, hi, hty.trans ht, hwell⟩
  | .localStore t i e, ⟨hi, ht, he⟩ => by
    obtain ⟨hty, hwell⟩ := constantEval_wellTyped e he
    exact ⟨rfl, hi, hty.trans ht, hwell⟩
  | .globalLoad t i, h => ⟨rfl, h⟩
  | .localLoad t i, h => ⟨rfl, h⟩
  | .postfixExpression t e op, h => ⟨rfl, h⟩
  | .shortLiteral _, h => ⟨rfl, h⟩
  | .byteLiteral _, h => ⟨rfl, h⟩
  | .prefixExpression t op e, ⟨ht, hvoid, hnot, hstep, he⟩ => by
    obtain ⟨hty, hwell⟩ := constantEval_wellTyped e he
    show typeOf ((evalPrefix op (constantEval e)).getD _) = t ∧
      WellTyped st ((evalPrefix op (constantEval e)).getD _)
    cases heval : evalPrefix op (constantEval e) with
    | none =>
      refine ⟨rfl, hty.trans ht, hvoid, hnot, fun hs => ?_, hwell⟩
      -- a variable is not folded
      cases e <;> first | rfl | exact absurd (hstep hs) Bool.false_ne_true
    | some e' =>
      obtain ⟨hty', hwell'⟩ := evalPrefix_typed heval
      exact ⟨hty'.trans (hty.trans ht), hwell'⟩
  | .binaryExpression t l op r, ⟨ht, hr, hvoid, hlogical, hwl, hwr⟩ => by
    obtain ⟨htl, hwl'⟩ := constantEval_wellTyped l hwl
    obtain ⟨htr, hwr'⟩ := constantEval_wellTyped r hwr
    have hr' : typeOf (constantEval r) = typeOf (constantEval l) := htr.trans (hr.trans htl.symm)
    rw [← htl] at ht hvoid hlogical
    show typeOf ((evalBinary (constantEval l) op (constantEval r)).getD _) = t ∧
      WellTyped st ((evalBinary (constantEval l) op (constantEval r)).getD _)
    cases heval : evalBinary (constantEval l) op (constantEval r) with
    | none => exact ⟨rfl, ht, hr', hvoid, hlogical, hwl', hwr'⟩
    | some e' =>
      obtain ⟨hty', hwell'⟩ := evalBinary_typed hr' heval
      exact ⟨hty'.trans ht.symm, hwell'⟩
  | .methodCall t i args, ⟨m, hm, hi, ht, hargs, hwell⟩ => by
    obtain ⟨htys, hwell'⟩ := constantEvalArgs_wellTyped args hwell
    exact ⟨rfl, m, hm, hi, ht, htys.trans hargs, hwell'⟩
  | .syscall t op args, ⟨nam, argTypes, hsys, hargs, hwell⟩ => by
    obtain ⟨htys, hwell'⟩ := constantEvalArgs_wellTyped args hwell
    exact ⟨rfl, nam, argTypes, hsys, htys.trans hargs, hwell'⟩
  | .typeConversion t e, ⟨hne, hvoid, he⟩ => by
    obtain ⟨hty, hwell⟩ := constantEval_wellTyped e he
    rw [← hty] at hne hvoid
    exact evalConversion_typed hne hvoid hwell
  | .booleanConversion e, ⟨ht, he⟩ => by
    obtain ⟨hty, hwell⟩ := constantEval_wellTyped e he
    exact evalBoolean_typed (hty.trans ht) hwell

theorem constantEvalArgs_wellTyped : ∀ (es : List TExpression), WellTypedArgs st es →
    (constantEvalArgs es).map typeOf = es.map typeOf ∧ WellTypedArgs st (constantEvalArgs es)
  | [], _ => ⟨rfl, trivial⟩
  | e :: es, ⟨he, hes⟩ => by
    obtain ⟨hty, hwell⟩ := constantEval_wellTyped e he
    obtain ⟨htys, hwells⟩ := constantEvalArgs_wellTyped es hes
    refine ⟨?_, hwell, hwells⟩
    show typeOf (constantEval e) :: (constantEvalArgs es).map typeOf = _
    rw [hty, htys, List.map_cons]

end

end KeyboardFirmware.Compiler
