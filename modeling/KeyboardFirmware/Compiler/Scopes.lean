/-
  Lexical scoping: the references of a source against those the type checker builds.

  A statement is read as a list of occurrences, scopes and declarations on the one hand and uses of
  names on the other.  What a use refers to is said of the list (`RefersTo`): the declaration in the
  innermost scope around it that has one in front of it, and a global variable when there is none.
  The type checker keeps a stack of tables instead (`Models`), and what it puts into the typed tree
  is what the list says (`buildTStatement_scoped`).

  Scopes are the blocks and the method, with its parameters.  The body of an `if` or a loop that is no
  block has no scope of its own: what it declares belongs to the scope around it.
-/
import KeyboardFirmware.Compiler.Declared
import KeyboardFirmware.Lib.Scoping

namespace KeyboardFirmware.Compiler

open Lib

/-! ## The source -/

/-- What a name in the source does. -/
inductive Occurrence where
  | scope (e : ScopeEvent Ident)
  | use (nam : Ident)
deriving DecidableEq

mutual

/-- The variables that an expression uses, in order. -/
def expressionUses : Expression → List Ident
  | .assignment lhs rhs => expressionUses lhs ++ expressionUses rhs
  | .prefixExpression _ e => expressionUses e
  | .postfixExpression e _ => expressionUses e
  | .binaryExpression lhs _ rhs => expressionUses lhs ++ expressionUses rhs
  | .shortLiteral _ => []
  | .byteLiteral _ => []
  | .variableAccess varName => [varName]
  | .methodInvocation _ args => argumentUses args
  | .typeCast _ e => expressionUses e

def argumentUses : List Expression → List Ident
  | [] => []
  | e :: es => expressionUses e ++ argumentUses es

end

/-- The uses of an expression. -/
def uses (e : Expression) : List Occurrence := (expressionUses e).map .use

/-- The occurrences in the body of an `if` or a loop; `bodies` makes every body a scope of its own. -/
def inBody (bodies : Bool) (occs : List Occurrence) : List Occurrence :=
  if bodies then .scope .enter :: occs ++ [.scope .leave] else occs

mutual

/-- The occurrences in a statement, in the order of the source.  An initializer uses the name that it
    stands behind, and then the names in it. -/
def occurrences (bodies : Bool) : Statement → List Occurrence
  | .block stats => .scope .enter :: occurrencesAll bodies stats ++ [.scope .leave]
  | .ifStatement expr thenBody elseBody =>
    uses expr ++ inBody bodies (occurrences bodies thenBody) ++ occurrencesElse bodies elseBody
  | .whileStatement cond body => uses cond ++ inBody bodies (occurrences bodies body)
  | .forStatement initializer cond iter body =>
    uses initializer ++ uses cond ++ uses iter ++ inBody bodies (occurrences bodies body)
  | .variableDeclarationStatement _ nam none => [.scope (.declare nam)]
  | .variableDeclarationStatement _ nam (some e) => .scope (.declare nam) :: .use nam :: uses e
  | .expressionStatement expr => uses expr
  | .returnValueStatement expr => uses expr
  | .returnStatement => []
  | .exitStatement => []
  | .breakStatement => []
  | .continueStatement => []

def occurrencesAll (bodies : Bool) : List Statement → List Occurrence
  | [] => []
  | s :: ss => occurrences bodies s ++ occurrencesAll bodies ss

def occurrencesElse (bodies : Bool) : Option Statement → List Occurrence
  | none => []
  | some s => inBody bodies (occurrences bodies s)

end

/-- The scopes and declarations among some occurrences. -/
def scopeEvents (occs : List Occurrence) : List (ScopeEvent Ident) :=
  occs.filterMap fun
    | .scope e => some e
    | .use _ => none

/-- The parameters of a method are declared in front of its body. -/
def MethodDec.parameters (d : MethodDec) : List (ScopeEvent Ident) := d.args.map fun a => .declare a.2

/-- The names of the global variables, in order. -/
def globalNames (decs : List Declaration) : List Ident :=
  decs.filterMap fun
    | .methodDeclaration _ _ _ _ => none
    | .globalVariableDeclaration _ nam => some nam

/-! ## The typed tree -/

/-- A reference: a local variable of the method, or a global variable, with its number. -/
inductive Ref where
  | local (i : VariableID)
  | global (i : VariableID)
deriving DecidableEq

mutual

/-- The references in an expression, in order. -/
def TExpression.refs : TExpression → List Ref
  | .globalStore _ i e => .global i :: e.refs
  | .localStore _ i e => .local i :: e.refs
  | .globalLoad _ i => [.global i]
  | .localLoad _ i => [.local i]
  | .prefixExpression _ _ e => e.refs
  | .postfixExpression _ e _ => e.refs
  | .binaryExpression _ lhs _ rhs => lhs.refs ++ rhs.refs
  | .shortLiteral _ => []
  | .byteLiteral _ => []
  | .methodCall _ _ args => argumentRefs args
  | .syscall _ _ args => argumentRefs args
  | .typeConversion _ e => e.refs
  | .booleanConversion e => e.refs

def argumentRefs : List TExpression → List Ref
  | [] => []
  | e :: es => e.refs ++ argumentRefs es

end

mutual

/-- The references in a statement, in order. -/
def TStatement.refs : TStatement → List Ref
  | .block _ stats => statementRefs stats
  | .ifStatement expr thenBody elseBody => expr.refs ++ thenBody.refs ++ elseRefs elseBody
  | .whileStatement cond body => cond.refs ++ body.refs
  | .forStatement initializer cond iter body =>
    initializer.refs ++ cond.refs ++ iter.refs ++ body.refs
  | .expressionStatement expr => expr.refs
  | .returnValueStatement expr => expr.refs
  | .returnStatement => []
  | .exitStatement => []
  | .breakStatement => []
  | .continueStatement => []
  | .empty => []

def statementRefs : List TStatement → List Ref
  | [] => []
  | s :: ss => s.refs ++ statementRefs ss

def elseRefs : Option TStatement → List Ref
  | none => []
  | some s => s.refs

end

/-! ## What a use refers to -/

/-- What a name refers to behind some scopes and declarations: the number of the declaration of the
    innermost scope that has one, or, where no scope has, the number of the global variable. -/
def RefersTo (globals : List Ident) (before : List (ScopeEvent Ident)) (nam : Ident) : Ref → Prop
  | .local k => Resolves before nam k
  | .global i => Undeclared before nam ∧ globals[i]? = some nam

/-- The references are those of the uses, in order. -/
def Bound (globals : List Ident) : List (ScopeEvent Ident) → List Occurrence → List Ref → Prop
  | _, [], refs => refs = []
  | before, .scope e :: occs, refs => Bound globals (before ++ [e]) occs refs
  | before, .use nam :: occs, refs =>
    ∃ r rest, refs = r :: rest ∧ RefersTo globals before nam r ∧ Bound globals before occs rest

variable {globals : List Ident} {before : List (ScopeEvent Ident)} {st st' : BindingState}

@[simp] theorem scopeEvents_append (xs ys : List Occurrence) :
    scopeEvents (xs ++ ys) = scopeEvents xs ++ scopeEvents ys := List.filterMap_append

@[simp] theorem scopeEvents_uses (e : Expression) : scopeEvents (uses e) = [] := by
  rw [scopeEvents, uses, List.filterMap_map]
  exact List.filterMap_eq_nil_iff.mpr fun _ _ => rfl

theorem Bound.append : ∀ {xs ys : List Occurrence} {before : List (ScopeEvent Ident)} {rs ss : List Ref},
    Bound globals before xs rs → Bound globals (before ++ scopeEvents xs) ys ss →
      Bound globals before (xs ++ ys) (rs ++ ss)
  | [], ys, before, rs, ss, hx, hy => by
    obtain rfl : rs = [] := hx
    rwa [scopeEvents, List.filterMap_nil, List.append_nil] at hy
  | .scope e :: xs, ys, before, rs, ss, hx, hy => by
    have hx' : Bound globals (before ++ [e]) xs rs := hx
    have hy' : Bound globals (before ++ [e] ++ scopeEvents xs) ys ss := by rwa [List.append_assoc]
    exact hx'.append hy'
  | .use nam :: xs, ys, before, rs, ss, hx, hy => by
    obtain ⟨r, rest, rfl, hr, hrest⟩ := hx
    exact ⟨r, rest ++ ss, rfl, hr, Bound.append hrest hy⟩

theorem bound_of_forall₂ {nams : List Ident} {rs : List Ref}
    (h : List.Forall₂ (RefersTo globals before) nams rs) : Bound globals before (nams.map .use) rs := by
  induction h with
  | nil => rfl
  | cons hr _ ih => exact ⟨_, _, rfl, hr, ih⟩

/-! ## Two outcomes of a check -/

/-- What a check gives is as `Q` says, and where it finds a name defined again, `R` holds. -/
structure Outcome {α : Type} (Q : α → Prop) (R : Prop) (x : ThrowsError α) : Prop where
  result : ∀ a, x = .ok a → Q a
  redefine : ∀ message, x = .error (.redefine message) → R

section

variable {α β : Type} {P : α → Prop} {Q : β → Prop} {R R' : Prop} {x : ThrowsError α} {f : α → ThrowsError β}

theorem Outcome.ok {b : β} (h : Q b) : Outcome Q R (.ok b) := by
  constructor
  · rintro _ ⟨⟩
    exact h
  · exact fun _ hr => (nomatch hr)

/-- Every other error says nothing. -/
theorem Outcome.error {e : CompileError} (h : ∀ message, e ≠ .redefine message) :
    Outcome Q R (.error e) := by
  constructor
  · exact fun _ hr => (nomatch hr)
  · exact fun message hr => absurd (Except.error.inj hr) (h message)

theorem Outcome.bind (hx : Outcome P R x) (hf : ∀ a, P a → Outcome Q R (f a)) : Outcome Q R (x >>= f) := by
  cases x with
  | error e =>
    refine ⟨fun _ hr => (nomatch hr), fun message hr => hx.redefine message ?_⟩
    obtain rfl := Except.error.inj hr
    rfl
  | ok a => exact hf a (hx.result a rfl)

theorem Outcome.mono {Q' : β → Prop} {y : ThrowsError β} (hy : Outcome Q R y) (hQ : ∀ b, Q b → Q' b)
    (hR : R → R') : Outcome Q' R' y :=
  ⟨fun b hb => hQ b (hy.result b hb), fun message hr => hR (hy.redefine message hr)⟩

theorem Outcome.and {Q Q' : β → Prop} {y : ThrowsError β} (hy : Outcome Q R y)
    (hy' : ∀ b, y = .ok b → Q' b) : Outcome (fun b => Q b ∧ Q' b) R y :=
  ⟨fun b hb => ⟨hy.result b hb, hy' b hb⟩, hy.redefine⟩

/-- A check that never finds a name defined again. -/
theorem Outcome.lift {y : ThrowsError β} (hy : Outcome Q False y) : Outcome Q R y :=
  hy.mono (fun _ h => h) False.elim

theorem guardError_outcome {e : CompileError} {b : Bool} (h : b = false → ∀ message, e = .redefine message → R) :
    Outcome (fun _ => b = true) R (guardError e b) := by
  cases b with
  | true => exact .ok rfl
  | false => exact ⟨fun _ hr => (nomatch hr), fun message hr => h rfl message (Except.error.inj hr)⟩

theorem maybeToError_outcome {e : CompileError} {o : Option α} (h : ∀ message, e ≠ .redefine message) :
    Outcome (fun a => o = some a) False (maybeToError e o) := by
  cases o with
  | none => exact .error h
  | some a => exact .ok rfl

end

/-! ## Names in expressions -/

/-- The tables of the innermost scopes, as a stack. -/
def BindingState.scopes (st : BindingState) : Scopes Ident := ⟨st.varIndex.length, st.varScopes⟩

/-- The state of the type checker behind some scopes and declarations of a method. -/
structure Models (globals : List Ident) (before : List (ScopeEvent Ident)) (st : BindingState) : Prop where
  inside : Inside before
  scopes : st.scopes = Scopes.start.run before
  globalScope : ∀ nam (i : Nat), st.globalVarScope.lookup nam = some i ↔ globals[i]? = some nam
  globalCount : st.globalVarIndex.length = globals.length
  localNumbered : NumberedVars st.varIndex
  globalNumbered : NumberedVars st.globalVarIndex

theorem nestedMapLookup_eq (s : String) (nam : Ident) : ∀ tables : List VariableScope,
    nestedMapLookup s nam tables = maybeToError (.mapLookupError s nam) (tables.findSome? (·.lookup nam))
  | [] => rfl
  | table :: tables => by
    rw [nestedMapLookup, List.findSome?_cons]
    cases table.lookup nam with
    | none => exact nestedMapLookup_eq s nam tables
    | some i => rfl

theorem Models.count (h : Models globals before st) : st.varIndex.length = declarations before := by
  have hcount := Scopes.run_count Scopes.start before
  rw [← h.scopes] at hcount
  exact hcount.trans (Nat.zero_add _)

theorem Models.find (h : Models globals before st) (nam : Ident) :
    st.varScopes.findSome? (·.lookup nam) = (Scopes.start.run before).find nam := by
  rw [← h.scopes]
  rfl

/-- A local variable is found exactly where a scope declares it. -/
theorem Models.localVar (h : Models globals before st) (nam : Ident) :
    (∃ v, lookupLocalVar st nam = .ok v ∧ Resolves before nam v.id) ∨
      ((∃ e, lookupLocalVar st nam = .error e) ∧ Undeclared before nam) := by
  unfold lookupLocalVar
  rw [nestedMapLookup_eq, h.find]
  cases hfind : (Scopes.start.run before).find nam with
  | none => exact .inr ⟨⟨_, rfl⟩, Scopes.undeclared_of_find h.inside hfind⟩
  | some k =>
    have hres := Scopes.resolves_of_find h.inside hfind
    have hlt := hres.lt_declarations
    rw [← h.count] at hlt
    refine .inl ⟨st.varIndex[k], ?_, ?_⟩
    · show maybeToError _ st.varIndex[k]? = _
      rw [List.getElem?_eq_getElem hlt]
      rfl
    · rwa [h.localNumbered k _ (List.getElem?_eq_getElem hlt)]

theorem Models.globalVar (h : Models globals before st) (nam : Ident) :
    Outcome (fun v => globals[v.id]? = some nam) False (lookupGlobalVar st nam) := by
  refine (maybeToError_outcome (fun _ => by simp)).bind fun i hi => ?_
  refine (maybeToError_outcome (fun _ => by simp)).mono (fun v hv => ?_) id
  rw [h.globalNumbered i v hv]
  exact (h.globalScope nam i).mp hi

/-- A variable is looked up among the locals, and then among the globals. -/
theorem Models.variable {β : Type} (h : Models globals before st) (nam : Ident)
    (ofLocal ofGlobal : TVariable → β) :
    Outcome (fun b => (∃ v, b = ofLocal v ∧ RefersTo globals before nam (.local v.id)) ∨
        ∃ v, b = ofGlobal v ∧ RefersTo globals before nam (.global v.id)) False
      (orTry (do let v ← lookupLocalVar st nam; .ok (ofLocal v))
        (orTry (do let v ← lookupGlobalVar st nam; .ok (ofGlobal v)) (.error (.undefinedVarError nam)))) := by
  rcases h.localVar nam with ⟨v, hv, hres⟩ | ⟨⟨e, he⟩, hnone⟩
  · rw [hv]
    exact .ok (.inl ⟨v, rfl, hres⟩)
  · rw [he]
    show Outcome _ _ (orTry _ _)
    cases hv : lookupGlobalVar st nam with
    | error e' => exact .error (fun _ => by simp)
    | ok v => exact .ok (.inr ⟨v, rfl, hnone, (h.globalVar nam).result v hv⟩)

/-! ## Expressions -/

/-- Conversions refer to nothing. -/
theorem typePromoteCheck_outcome (t : Typ) (e : TExpression) :
    Outcome (fun e' => e'.refs = e.refs) False (typePromoteCheck t e) := by
  unfold typePromoteCheck
  split
  · exact .ok rfl
  · split
    · exact .ok rfl
    · exact .error (fun _ => by simp)

theorem typeCastCheck_outcome (t : Typ) (e : TExpression) :
    Outcome (fun e' => e'.refs = e.refs) False (typeCastCheck t e) := by
  unfold typeCastCheck
  split
  · exact .ok rfl
  · split
    · exact .ok rfl
    · split
      · exact .error (fun _ => by simp)
      · exact .ok rfl

theorem valueTypeCheck_outcome (e : TExpression) : Outcome (fun e' => e' = e) False (valueTypeCheck e) := by
  unfold valueTypeCheck
  split
  · exact .error (fun _ => by simp)
  · exact .ok rfl

theorem booleanConvertCheck_outcome (e : TExpression) :
    Outcome (fun e' => e'.refs = e.refs) False (booleanConvertCheck e) := by
  refine (valueTypeCheck_outcome e).bind ?_
  rintro _ rfl
  refine .ok ?_
  split
  · rfl
  · rfl

theorem lvalueCheck_outcome (e : Expression) : Outcome (fun _ => True) False (lvalueCheck e) := by
  cases e with
  | variableAccess nam => exact .ok trivial
  | _ => exact .error (fun _ => by simp)

theorem promoteArgs_outcome : ∀ (ts : List Typ) (es : List TExpression), ts.length = es.length →
    Outcome (fun es' => argumentRefs es' = argumentRefs es) False
      ((ts.zip es).mapM fun a => typePromoteCheck a.1 a.2)
  | [], [], _ => .ok rfl
  | [], _ :: _, hlen => (nomatch hlen)
  | _ :: _, [], hlen => (nomatch hlen)
  | t :: ts, e :: es, hlen => by
    rw [List.zip_cons_cons, List.mapM_cons]
    refine (typePromoteCheck_outcome t e).bind fun e' he => ?_
    refine (promoteArgs_outcome ts es (Nat.succ.inj hlen)).bind fun es' hes => .ok ?_
    rw [argumentRefs, argumentRefs, he, hes]

/-- A method and a system call only pass their arguments on. -/
theorem resolveInvocation_outcome (nam : Ident) :
    Outcome (fun c => ∀ args, (c.1 args).refs = argumentRefs args) False (resolveInvocation st nam) := by
  refine ⟨fun c hc => ?_, fun message hc => ?_⟩
  · rcases orTry_eq_ok hc with h | h
    · obtain ⟨m, -, h⟩ := bind_eq_ok.mp h
      obtain rfl := Except.ok.inj h
      exact fun args => rfl
    · obtain ⟨⟨op, t, ts⟩, -, h⟩ := bind_eq_ok.mp h
      obtain rfl := Except.ok.inj h
      exact fun args => rfl
  · unfold resolveInvocation orTry at hc
    split at hc
    · exact (nomatch hc)
    · cases hsys : syscalls.lookup nam <;> rw [hsys] at hc <;> exact (nomatch hc)

mutual

/-- **The references of an expression** are those of the names in it, in order. -/
theorem buildTExpression_outcome (hst : Models globals before st) : ∀ x : Expression,
    Outcome (fun e => List.Forall₂ (RefersTo globals before) (expressionUses x) e.refs) False
      (buildTExpression st x)
  | .shortLiteral val => .ok .nil
  | .byteLiteral val => .ok .nil
  | .variableAccess nam => by
    refine (hst.variable nam (fun v => TExpression.localLoad v.typ v.id)
      fun v => TExpression.globalLoad v.typ v.id).mono ?_ id
    rintro e (⟨v, rfl, hv⟩ | ⟨v, rfl, hv⟩)
    · exact .cons hv .nil
    · exact .cons hv .nil
  | .assignment lhs rhs => by
    cases lhs with
    | variableAccess nam =>
      refine (hst.variable nam (fun v => (TExpression.localStore v.typ v.id, v.typ))
        fun v => (TExpression.globalStore v.typ v.id, v.typ)).bind fun stor hstor => ?_
      refine (buildTExpression_outcome hst rhs).bind fun e he => ?_
      refine (typePromoteCheck_outcome stor.2 e).bind fun e' he' => .ok ?_
      rw [← he'] at he
      obtain ⟨v, rfl, hv⟩ | ⟨v, rfl, hv⟩ := hstor
      · exact .cons hv he
      · exact .cons hv he
    | _ => exact .error (fun _ => by simp)
  | .typeCast t x => by
    refine (buildTExpression_outcome hst x).bind fun e he => ?_
    refine (typeCastCheck_outcome t e).mono (fun e' he' => ?_) id
    rw [he']
    exact he
  | .postfixExpression x op => by
    refine (lvalueCheck_outcome x).bind fun _ _ => ?_
    refine (buildTExpression_outcome hst x).bind fun e he => ?_
    refine (valueTypeCheck_outcome e).bind ?_
    rintro _ rfl
    exact .ok he
  | .prefixExpression op x => by
    by_cases hnot : op = .not
    · subst hnot
      refine (buildTExpression_outcome hst x).bind fun e he => ?_
      refine (booleanConvertCheck_outcome e).bind fun e' he' => .ok ?_
      rw [← he'] at he
      exact he
    · by_cases hlit : op = .minus ∧ ((∃ s, x = .shortLiteral s) ∨ ∃ b, x = .byteLiteral b)
      · obtain ⟨rfl, ⟨s, rfl⟩ | ⟨b, rfl⟩⟩ := hlit
        · exact .ok .nil
        · exact .ok .nil
      · rw [buildTExpression]
        rotate_left
        · exact hnot
        · exact fun s hm hx => hlit ⟨hm, .inl ⟨s, hx⟩⟩
        · exact fun b hm hx => hlit ⟨hm, .inr ⟨b, hx⟩⟩
        have hrest : Outcome (fun e : TExpression =>
            List.Forall₂ (RefersTo globals before) (expressionUses x) e.refs) False (do
              let tE1 ← buildTExpression st x
              let tE1' ← valueTypeCheck tE1
              .ok (TExpression.prefixExpression (typeOf tE1') op tE1')) := by
          refine (buildTExpression_outcome hst x).bind fun e he => ?_
          refine (valueTypeCheck_outcome e).bind ?_
          rintro _ rfl
          exact .ok he
        split
        · exact (lvalueCheck_outcome x).bind fun _ _ => hrest
        · exact hrest
  | .binaryExpression x op y => by
    refine (buildTExpression_outcome hst x).bind fun e he => ?_
    split
    · refine (booleanConvertCheck_outcome e).bind fun e' he' => ?_
      refine (buildTExpression_outcome hst y).bind fun f hf => ?_
      refine (booleanConvertCheck_outcome f).bind fun f' hf' => .ok ?_
      rw [← he'] at he
      rw [← hf'] at hf
      exact List.rel_append he hf
    · refine (valueTypeCheck_outcome e).bind ?_
      rintro e rfl
      refine (buildTExpression_outcome hst y).bind fun f hf => ?_
      refine (valueTypeCheck_outcome f).bind ?_
      rintro f rfl
      refine (typePromoteCheck_outcome _ e).bind fun e' he' => ?_
      refine (typePromoteCheck_outcome _ f).bind fun f' hf' => .ok ?_
      rw [← he'] at he
      rw [← hf'] at hf
      exact List.rel_append he hf
  | .methodInvocation nam args => by
    refine (resolveInvocation_outcome nam).bind fun c hc => ?_
    refine (guardError_outcome fun _ _ => by simp).bind fun _ hlen => ?_
    have hlen : c.2.length = args.length := by simpa using hlen
    refine (buildTArgs_outcome hst args).bind fun tArgs htArgs => ?_
    obtain ⟨hargs, hcount⟩ := htArgs
    refine (promoteArgs_outcome c.2 tArgs (hlen.trans hcount.symm)).bind fun tArgs' hpro => .ok ?_
    rw [hc, hpro]
    exact hargs

theorem buildTArgs_outcome (hst : Models globals before st) : ∀ xs : List Expression,
    Outcome (fun es => List.Forall₂ (RefersTo globals before) (argumentUses xs) (argumentRefs es) ∧
      es.length = xs.length) False (buildTArgs st xs)
  | [] => .ok ⟨.nil, rfl⟩
  | x :: xs => by
    refine (buildTExpression_outcome hst x).bind fun e he => ?_
    refine (buildTArgs_outcome hst xs).bind fun es hes => .ok ⟨List.rel_append he hes.1, ?_⟩
    rw [List.length_cons, List.length_cons, hes.2]

end

/-! ## Statements -/

/-- What checking a statement with these occurrences leaves: its references are those of the uses, and no
    name is declared again in its scope. -/
structure Scoped (globals : List Ident) (before : List (ScopeEvent Ident)) (occs : List Occurrence)
    (refs : List Ref) (st' : BindingState) : Prop where
  models : Models globals (before ++ scopeEvents occs) st'
  bound : Bound globals before occs refs
  fresh : ¬ Redeclares before (scopeEvents occs)

variable {xs ys : List Occurrence} {rs ss : List Ref} {e : Expression}

theorem Scoped.nil (hst : Models globals before st) : Scoped globals before [] [] st :=
  ⟨(List.append_nil before).symm ▸ hst, rfl, redeclares_nil⟩

theorem Scoped.append (hx : Scoped globals before xs rs st)
    (hy : Scoped globals (before ++ scopeEvents xs) ys ss st') :
    Scoped globals before (xs ++ ys) (rs ++ ss) st' where
  models := by
    rw [scopeEvents_append, ← List.append_assoc]
    exact hy.models
  bound := hx.bound.append hy.bound
  fresh := by
    rw [scopeEvents_append, redeclares_append]
    rintro (h | h)
    · exact hx.fresh h
    · exact hy.fresh h

/-- Uses leave the scopes as they are. -/
theorem Scoped.uses (hst : Models globals before st)
    (he : List.Forall₂ (RefersTo globals before) (expressionUses e) rs) :
    Scoped globals before (uses e) rs st where
  models := by
    rw [scopeEvents_uses, List.append_nil]
    exact hst
  bound := bound_of_forall₂ he
  fresh := by
    rw [scopeEvents_uses]
    exact redeclares_nil

theorem Scoped.behindUses (hst : Models globals before st)
    (he : List.Forall₂ (RefersTo globals before) (expressionUses e) rs)
    (hx : Scoped globals before xs ss st') : Scoped globals before (Compiler.uses e ++ xs) (rs ++ ss) st' := by
  refine (Scoped.uses hst he).append ?_
  rw [scopeEvents_uses, List.append_nil]
  exact hx

/-- The loop is no scope. -/
theorem Models.loop (h : Models globals before st) (b : Bool) :
    Models globals before { st with withinLoop := b } :=
  ⟨h.inside, h.scopes, h.globalScope, h.globalCount, h.localNumbered, h.globalNumbered⟩

theorem Scoped.loop (h : Scoped globals before xs rs st) (b : Bool) :
    Scoped globals before xs rs { st with withinLoop := b } :=
  ⟨h.models.loop b, h.bound, h.fresh⟩

theorem Models.enter (h : Models globals before st) :
    Models globals (before ++ [.enter]) { st with varScopes := [] :: st.varScopes } where
  inside := inside_snoc.mpr ⟨h.inside, Int.add_nonneg h.inside.depth_nonneg Int.one_nonneg⟩
  scopes := by
    rw [Scopes.run_snoc, ← h.scopes]
    rfl
  globalScope := h.globalScope
  globalCount := h.globalCount
  localNumbered := h.localNumbered
  globalNumbered := h.globalNumbered

theorem Models.leave {vs : VariableScope} {vss : List VariableScope} (h : Models globals before st)
    (hinside : Inside (before ++ [.leave])) (hst : st.varScopes = vs :: vss) :
    Models globals (before ++ [.leave]) { st with varScopes := vss } where
  inside := hinside
  scopes := by
    rw [Scopes.run_snoc, ← h.scopes, BindingState.scopes, BindingState.scopes, hst]
    rfl
  globalScope := h.globalScope
  globalCount := h.globalCount
  localNumbered := h.localNumbered
  globalNumbered := h.globalNumbered

/-- A declaration is checked against its own scope only. -/
theorem addLocalVariable_outcome (hst : Models globals before st) (typ : Typ) (nam : Ident) :
    Outcome (fun r => Scoped globals before [.scope (.declare nam)] [] r.2 ∧
        RefersTo globals (before ++ [.declare nam]) nam (.local r.1))
      (Redeclares before [.declare nam]) (addLocalVariable typ nam st) := by
  unfold addLocalVariable
  split
  · exact .error (fun _ => by simp)
  · next vscope vsrest hscopes =>
    have hlevel : (Scopes.start.run before).level 0 nam = vscope.lookup nam := by
      rw [← hst.scopes, BindingState.scopes, Scopes.level, hscopes]
      rfl
    have hdeclared : scopeMember nam vscope = true ↔ Redeclares before [.declare nam] := by
      rw [scopeMember, ← hlevel, Scopes.level_zero_isSome_iff hst.inside, redeclares_singleton]
      constructor
      · rintro ⟨k, hk⟩
        exact ⟨nam, k, rfl, hk⟩
      · rintro ⟨a, k, ha, hk⟩
        obtain rfl := ScopeEvent.declare.inj ha
        exact ⟨k, hk⟩
    refine (guardError_outcome fun hb _ _ => hdeclared.mp (by simpa using hb)).bind fun _ hb => .ok ⟨?_, ?_⟩
    · refine ⟨⟨?_, ?_, hst.globalScope, hst.globalCount, ?_, hst.globalNumbered⟩, rfl, fun h => ?_⟩
      · exact inside_snoc.mpr ⟨hst.inside, Int.add_nonneg hst.inside.depth_nonneg (Int.le_refl 0)⟩
      · show _ = Scopes.start.run (before ++ [.declare nam])
        rw [Scopes.run_snoc, ← hst.scopes, BindingState.scopes, BindingState.scopes, hscopes,
          List.length_append]
        rfl
      · exact hst.localNumbered.addVars [typ]
      · rw [hdeclared.mpr h] at hb
        exact absurd hb (by decide)
    · show Resolves _ _ _
      rw [hst.count]
      exact resolves_declare

theorem inBody_balanced (bodies : Bool) {occs : List Occurrence} (h : Encloses 0 (scopeEvents occs)) :
    Encloses 0 (scopeEvents (inBody bodies occs)) := by
  cases bodies with
  | false => exact h
  | true =>
    show Encloses 0 (scopeEvents ((.scope .enter :: occs) ++ [.scope .leave]))
    rw [scopeEvents_append]
    exact h.scope

mutual

/-- The scopes in a statement are balanced. -/
theorem occurrences_balanced (bodies : Bool) : ∀ s : Statement,
    Encloses 0 (scopeEvents (occurrences bodies s))
  | .block stats => by
    rw [occurrences, scopeEvents_append]
    exact (occurrencesAll_balanced bodies stats).scope
  | .ifStatement expr thenBody elseBody => by
    rw [occurrences, scopeEvents_append, scopeEvents_append, scopeEvents_uses, List.nil_append]
    exact (inBody_balanced bodies (occurrences_balanced bodies thenBody)).append
      (occurrencesElse_balanced bodies elseBody)
  | .whileStatement cond body => by
    rw [occurrences, scopeEvents_append, scopeEvents_uses, List.nil_append]
    exact inBody_balanced bodies (occurrences_balanced bodies body)
  | .forStatement initializer cond iter body => by
    simp only [occurrences, scopeEvents_append, scopeEvents_uses, List.nil_append]
    exact inBody_balanced bodies (occurrences_balanced bodies body)
  | .variableDeclarationStatement _ nam none => encloses_declare nam
  | .variableDeclarationStatement _ nam (some e) => by
    have hevs : scopeEvents (.scope (.declare nam) :: .use nam :: uses e) = [.declare nam] :=
      congrArg (ScopeEvent.declare nam :: ·) (scopeEvents_uses e)
    rw [occurrences, hevs]
    exact encloses_declare nam
  | .expressionStatement expr => by
    rw [occurrences, scopeEvents_uses]
    exact encloses_nil
  | .returnValueStatement expr => by
    rw [occurrences, scopeEvents_uses]
    exact encloses_nil
  | .returnStatement => encloses_nil
  | .exitStatement => encloses_nil
  | .breakStatement => encloses_nil
  | .continueStatement => encloses_nil

theorem occurrencesAll_balanced (bodies : Bool) : ∀ stats : List Statement,
    Encloses 0 (scopeEvents (occurrencesAll bodies stats))
  | [] => encloses_nil
  | s :: ss => by
    rw [occurrencesAll, scopeEvents_append]
    exact (occurrences_balanced bodies s).append (occurrencesAll_balanced bodies ss)

theorem occurrencesElse_balanced (bodies : Bool) : ∀ o : Option Statement,
    Encloses 0 (scopeEvents (occurrencesElse bodies o))
  | none => encloses_nil
  | some s => inBody_balanced bodies (occurrences_balanced bodies s)

end

mutual

/-- **One statement**: its references are those of its uses, and it is rejected for a name that is
    declared again. -/
theorem buildTStatement_outcome : ∀ (s : Statement) {before : List (ScopeEvent Ident)}
    {st : BindingState}, Models globals before st →
      Outcome (fun r => Scoped globals before (occurrences false s) r.1.refs r.2)
        (Redeclares before (scopeEvents (occurrences false s))) (buildTStatement s st)
  | .block stats, before, st, hst => by
    have hevs : scopeEvents (occurrences false (.block stats)) =
        .enter :: scopeEvents (occurrencesAll false stats) ++ [.leave] := by
      rw [occurrences, scopeEvents_append]
      rfl
    rw [hevs, redeclares_scope]
    refine (buildTStatements_outcome stats hst.enter).bind ?_
    rintro ⟨tStats, st1⟩ hr
    dsimp only
    split
    · exact .error (fun _ => by simp)
    · next vs vss hscopes =>
      have hassoc : before ++ (.enter :: scopeEvents (occurrencesAll false stats) ++ [.leave]) =
          before ++ [.enter] ++ scopeEvents (occurrencesAll false stats) ++ [.leave] := by simp
      have hinside := hst.inside.append (occurrencesAll_balanced false stats).scope.inside
      rw [hassoc] at hinside
      refine .ok ⟨?_, ?_, ?_⟩
      · rw [hevs, hassoc]
        exact hr.models.leave hinside hscopes
      · have hleave : Bound globals (before ++ [.enter] ++ scopeEvents (occurrencesAll false stats))
            [.scope .leave] [] := rfl
        have hbound := hr.bound.append hleave
        rw [List.append_nil] at hbound
        exact hbound
      · rw [hevs, redeclares_scope]
        exact hr.fresh
  | .ifStatement expr thenBody elseBody, before, st, hst => by
    have hevs : scopeEvents (occurrences false (.ifStatement expr thenBody elseBody)) =
        scopeEvents (occurrences false thenBody) ++ scopeEvents (occurrencesElse false elseBody) := by
      simp only [occurrences, scopeEvents_append, scopeEvents_uses, List.nil_append]
      rfl
    rw [hevs, redeclares_append]
    refine (buildTExpression_outcome hst expr).lift.bind fun e he => ?_
    refine (booleanConvertCheck_outcome e).lift.bind fun e' he' => ?_
    rw [← he'] at he
    refine ((buildTStatement_outcome thenBody hst).mono (fun _ h => h) .inl).bind fun r1 hr1 => ?_
    refine ((buildTElse_outcome elseBody hr1.models).mono (fun _ h => h) .inr).bind fun r2 hr2 => ?_
    exact .ok ((hr1.behindUses hst he).append (by
      rw [scopeEvents_append, scopeEvents_uses, List.nil_append]
      exact hr2))
  | .whileStatement cond body, before, st, hst => by
    have hevs : scopeEvents (occurrences false (.whileStatement cond body)) =
        scopeEvents (occurrences false body) := by
      simp only [occurrences, scopeEvents_append, scopeEvents_uses, List.nil_append]
      rfl
    rw [hevs]
    refine (buildTExpression_outcome hst cond).lift.bind fun e he => ?_
    refine (booleanConvertCheck_outcome e).lift.bind fun e' he' => ?_
    rw [← he'] at he
    refine (buildTStatement_outcome body (hst.loop true)).bind fun r hr => ?_
    exact .ok ((hr.loop st.withinLoop).behindUses hst he)
  | .forStatement initializer cond iter body, before, st, hst => by
    have hevs : scopeEvents (occurrences false (.forStatement initializer cond iter body)) =
        scopeEvents (occurrences false body) := by
      simp only [occurrences, scopeEvents_append, scopeEvents_uses, List.nil_append]
      rfl
    rw [hevs]
    refine (buildTExpression_outcome hst initializer).lift.bind fun i hi => ?_
    refine (buildTExpression_outcome hst cond).lift.bind fun c hc => ?_
    refine (booleanConvertCheck_outcome c).lift.bind fun c' hc' => ?_
    rw [← hc'] at hc
    refine (buildTExpression_outcome hst iter).lift.bind fun it hit => ?_
    refine (buildTStatement_outcome body (hst.loop true)).bind fun r hr => .ok ?_
    show Scoped _ _ (uses _ ++ uses _ ++ uses _ ++ _) (_ ++ _ ++ _ ++ _) _
    simp only [List.append_assoc]
    exact (((hr.loop st.withinLoop).behindUses hst hit).behindUses hst hc).behindUses hst hi
  | .variableDeclarationStatement typ nam initializer, before, st, hst => by
    rw [buildTStatement]
    split
    · exact .error (fun _ => by simp)
    cases initializer with
    | none =>
      refine (addLocalVariable_outcome hst typ nam).bind fun r hr => ?_
      exact .ok hr.1
    | some expr =>
      have hevs : scopeEvents (occurrences false (.variableDeclarationStatement typ nam (some expr))) =
          [.declare nam] := congrArg (ScopeEvent.declare nam :: ·) (scopeEvents_uses expr)
      rw [hevs]
      refine (addLocalVariable_outcome hst typ nam).bind fun r hr => ?_
      obtain ⟨hscoped, hself⟩ := hr
      refine (buildTExpression_outcome hscoped.models expr).lift.bind fun e he => ?_
      refine (typePromoteCheck_outcome typ e).lift.bind fun e' he' => .ok ?_
      rw [← he'] at he
      have hrest := Scoped.uses hscoped.models he
      have huse : Scoped globals (before ++ [.declare nam]) (.use nam :: uses expr) (.local r.1 :: e'.refs) r.2 :=
        ⟨hrest.models, ⟨.local r.1, e'.refs, rfl, hself, hrest.bound⟩, hrest.fresh⟩
      exact hscoped.append huse
  | .expressionStatement expr, before, st, hst => by
    refine (buildTExpression_outcome hst expr).lift.bind fun e he => ?_
    refine (typePromoteCheck_outcome .void e).lift.bind fun e' he' => .ok ?_
    rw [← he'] at he
    exact .uses hst he
  | .returnValueStatement expr, before, st, hst => by
    refine (buildTExpression_outcome hst expr).lift.bind fun e he => ?_
    refine (typePromoteCheck_outcome st.returnType e).lift.bind fun e' he' => ?_
    refine (guardError_outcome fun _ _ => by simp).bind fun _ _ => .ok ?_
    rw [← he'] at he
    exact .uses hst he
  | .returnStatement, before, st, hst =>
    (guardError_outcome fun _ _ => by simp).bind fun _ _ => .ok (.nil hst)
  | .exitStatement, before, st, hst => .ok (.nil hst)
  | .breakStatement, before, st, hst =>
    (guardError_outcome fun _ _ => by simp).bind fun _ _ => .ok (.nil hst)
  | .continueStatement, before, st, hst =>
    (guardError_outcome fun _ _ => by simp).bind fun _ _ => .ok (.nil hst)

theorem buildTStatements_outcome : ∀ (ss : List Statement) {before : List (ScopeEvent Ident)}
    {st : BindingState}, Models globals before st →
      Outcome (fun r => Scoped globals before (occurrencesAll false ss) (statementRefs r.1) r.2)
        (Redeclares before (scopeEvents (occurrencesAll false ss))) (buildTStatements ss st)
  | [], before, st, hst => .ok (.nil hst)
  | s :: ss, before, st, hst => by
    rw [occurrencesAll, scopeEvents_append, redeclares_append]
    refine ((buildTStatement_outcome s hst).mono (fun _ h => h) .inl).bind fun r1 hr1 => ?_
    refine ((buildTStatements_outcome ss hr1.models).mono (fun _ h => h) .inr).bind fun r2 hr2 => ?_
    exact .ok (hr1.append hr2)

theorem buildTElse_outcome : ∀ (o : Option Statement) {before : List (ScopeEvent Ident)}
    {st : BindingState}, Models globals before st →
      Outcome (fun r => Scoped globals before (occurrencesElse false o) (elseRefs r.1) r.2)
        (Redeclares before (scopeEvents (occurrencesElse false o))) (buildTElse o st)
  | none, before, st, hst => .ok (.nil hst)
  | some s, before, st, hst => by
    refine (buildTStatement_outcome s hst).bind fun r hr => ?_
    exact .ok hr

end

theorem addLocalVariable_outer {lvTyp : Typ} {lvNam : Ident} {varId : VariableID}
    (h : addLocalVariable lvTyp lvNam st = .ok (varId, st')) :
    st'.varScopes.tail = st.varScopes.tail ∧ st'.globalVarScope = st.globalVarScope := by
  unfold addLocalVariable at h
  split at h
  · exact (nomatch h)
  · next vscope vsrest hscopes =>
    obtain ⟨u, -, h⟩ := bind_eq_ok.mp h
    obtain ⟨-, rfl⟩ := Prod.mk.inj (Except.ok.inj h)
    rw [hscopes]
    exact ⟨rfl, rfl⟩

mutual

/-- A statement leaves the tables of the outer scopes, and of the globals, as they are. -/
theorem buildTStatement_outer : ∀ (s : Statement) {st st' : BindingState} {t : TStatement},
    buildTStatement s st = .ok (t, st') →
      st'.varScopes.tail = st.varScopes.tail ∧ st'.globalVarScope = st.globalVarScope
  | .block stats, st, st', t, h => by
    obtain ⟨hscopes, hglobals⟩ := buildTBlock_outer stats h
    exact ⟨congrArg List.tail hscopes, hglobals⟩
  | .ifStatement expr thenBody elseBody, st, st', t, h => by
    simp only [buildTStatement, bind_eq_ok, Prod.exists] at h
    obtain ⟨e, -, e', -, tThen, st1, hthen, tElse, st2, helse, h⟩ := h
    obtain ⟨-, rfl⟩ := Prod.mk.inj (Except.ok.inj h)
    obtain ⟨hscopes, hglobals⟩ := buildTStatement_outer thenBody hthen
    obtain ⟨hscopes', hglobals'⟩ := buildTElse_outer elseBody helse
    exact ⟨hscopes'.trans hscopes, hglobals'.trans hglobals⟩
  | .whileStatement cond body, st, st', t, h => by
    simp only [buildTStatement, bind_eq_ok, Prod.exists] at h
    obtain ⟨c, -, c', -, tBody, st1, hbody, h⟩ := h
    obtain ⟨-, rfl⟩ := Prod.mk.inj (Except.ok.inj h)
    have houter := buildTStatement_outer body hbody
    exact houter
  | .forStatement initializer cond iter body, st, st', t, h => by
    simp only [buildTStatement, bind_eq_ok, Prod.exists] at h
    obtain ⟨i, -, c, -, c', -, it, -, tBody, st1, hbody, h⟩ := h
    obtain ⟨-, rfl⟩ := Prod.mk.inj (Except.ok.inj h)
    have houter := buildTStatement_outer body hbody
    exact houter
  | .variableDeclarationStatement typ nam initializer, st, st', t, h => by
    simp only [buildTStatement] at h
    split at h
    · exact (nomatch h)
    obtain ⟨⟨varId, st1⟩, hadd, h⟩ := bind_eq_ok.mp h
    have houter := addLocalVariable_outer hadd
    cases initializer with
    | none =>
      obtain ⟨-, rfl⟩ := Prod.mk.inj (Except.ok.inj h)
      exact houter
    | some expr =>
      simp only [bind_eq_ok] at h
      obtain ⟨e, -, e', -, h⟩ := h
      obtain ⟨-, rfl⟩ := Prod.mk.inj (Except.ok.inj h)
      exact houter
  | .expressionStatement expr, st, st', t, h => by
    simp only [buildTStatement, bind_eq_ok] at h
    obtain ⟨e, -, e', -, h⟩ := h
    obtain ⟨-, rfl⟩ := Prod.mk.inj (Except.ok.inj h)
    exact ⟨rfl, rfl⟩
  | .returnValueStatement expr, st, st', t, h => by
    simp only [buildTStatement, bind_eq_ok] at h
    obtain ⟨e, -, e', -, u, -, h⟩ := h
    obtain ⟨-, rfl⟩ := Prod.mk.inj (Except.ok.inj h)
    exact ⟨rfl, rfl⟩
  | .returnStatement, st, st', t, h => by
    obtain ⟨u, -, h⟩ := bind_eq_ok.mp h
    obtain ⟨-, rfl⟩ := Prod.mk.inj (Except.ok.inj h)
    exact ⟨rfl, rfl⟩
  | .exitStatement, st, st', t, h => by
    obtain ⟨-, rfl⟩ := Prod.mk.inj (Except.ok.inj h)
    exact ⟨rfl, rfl⟩
  | .breakStatement, st, st', t, h => by
    obtain ⟨u, -, h⟩ := bind_eq_ok.mp h
    obtain ⟨-, rfl⟩ := Prod.mk.inj (Except.ok.inj h)
    exact ⟨rfl, rfl⟩
  | .continueStatement, st, st', t, h => by
    obtain ⟨u, -, h⟩ := bind_eq_ok.mp h
    obtain ⟨-, rfl⟩ := Prod.mk.inj (Except.ok.inj h)
    exact ⟨rfl, rfl⟩

/-- **A block leaves nothing behind**: the names that are visible behind it are those before it. -/
theorem buildTBlock_outer : ∀ (stats : List Statement) {st st' : BindingState} {t : TStatement},
    buildTStatement (.block stats) st = .ok (t, st') →
      st'.varScopes = st.varScopes ∧ st'.globalVarScope = st.globalVarScope
  | stats, st, st', t, h => by
    simp only [buildTStatement, bind_eq_ok, Prod.exists] at h
    obtain ⟨tStats, st1, hstats, h⟩ := h
    obtain ⟨hscopes, hglobals⟩ := buildTStatements_outer stats hstats
    split at h
    · exact (nomatch h)
    · next vs vss hst1 =>
      obtain ⟨-, rfl⟩ := Prod.mk.inj (Except.ok.inj h)
      rw [hst1] at hscopes
      exact ⟨hscopes, hglobals⟩

theorem buildTStatements_outer : ∀ (ss : List Statement) {st st' : BindingState} {ts : List TStatement},
    buildTStatements ss st = .ok (ts, st') →
      st'.varScopes.tail = st.varScopes.tail ∧ st'.globalVarScope = st.globalVarScope
  | [], st, st', ts, h => by
    obtain ⟨-, rfl⟩ := Prod.mk.inj (Except.ok.inj h)
    exact ⟨rfl, rfl⟩
  | s :: ss, st, st', ts, h => by
    simp only [buildTStatements, bind_eq_ok, Prod.exists] at h
    obtain ⟨t, st1, hs, ts', st2, hss, h⟩ := h
    obtain ⟨-, rfl⟩ := Prod.mk.inj (Except.ok.inj h)
    obtain ⟨hscopes, hglobals⟩ := buildTStatement_outer s hs
    obtain ⟨hscopes', hglobals'⟩ := buildTStatements_outer ss hss
    exact ⟨hscopes'.trans hscopes, hglobals'.trans hglobals⟩

theorem buildTElse_outer : ∀ (o : Option Statement) {st st' : BindingState} {t : Option TStatement},
    buildTElse o st = .ok (t, st') →
      st'.varScopes.tail = st.varScopes.tail ∧ st'.globalVarScope = st.globalVarScope
  | none, st, st', t, h => by
    obtain ⟨-, rfl⟩ := Prod.mk.inj (Except.ok.inj h)
    exact ⟨rfl, rfl⟩
  | some s, st, st', t, h => by
    simp only [buildTElse, bind_eq_ok, Prod.exists] at h
    obtain ⟨t', st1, hs, h⟩ := h
    obtain ⟨-, rfl⟩ := Prod.mk.inj (Except.ok.inj h)
    exact buildTStatement_outer s hs

end

/-! ## Programs -/

/-- The tables of a method, as a stack. -/
def TMethod.scopes (m : TMethod) : Scopes Ident := ⟨m.vars.length, [m.scope]⟩

/-- No two globals and no two methods have one name. -/
structure DistinctNames (decs : List Declaration) : Prop where
  globals : (globalNames decs).Nodup
  methods : ((methodDecs decs).map (·.nam)).Nodup

/-- A method that has the name of a system call, or whose body declares a name again. -/
def MethodDec.Redefines (d : MethodDec) : Prop :=
  (syscalls.lookup d.nam).isSome ∨ Redeclares d.parameters (scopeEvents (occurrencesAll false d.body))

/-- A name is defined again. -/
def Redefined (decs : List Declaration) : Prop :=
  ¬ DistinctNames decs ∨ ∃ d ∈ methodDecs decs, d.Redefines

/-- The references of a method are those of its source. -/
structure BodyScoped (globals : List Ident) (d : MethodDec) (m : TMethod) : Prop where
  bound : Bound globals d.parameters (occurrencesAll false d.body) (statementRefs m.body)
  fresh : ¬ d.Redefines

/-- And its variables are its declarations, numbered in order, so that no two of them have one number.
    Where the names of the parameters differ, a name stands for one declaration at every place. -/
structure LexicallyScoped (globals : List Ident) (d : MethodDec) (m : TMethod) : Prop extends
    BodyScoped globals d m where
  types : varTypes m.vars = d.localTypes
  numbered : NumberedVars m.vars
  single : (d.args.map (·.2)).Nodup →
    ∀ evs, evs <+: d.parameters ++ scopeEvents (occurrencesAll false d.body) →
      ∀ nam k k', Resolves evs nam k → Resolves evs nam k' → k = k'

variable {p p' : TProgram} {decs : List Declaration} {dec : Declaration}

/-- The scopes of a skeleton. -/
structure TProgram.ScannedScopes (p : TProgram) (decs : List Declaration) : Prop where
  globals : ∀ nam (i : Nat), p.varScope.lookup nam = some i ↔ (globalNames decs)[i]? = some nam
  count : p.vars.length = (globalNames decs).length
  methods : p.methods.map (·.scopes) = (methodDecs decs).map fun d => Scopes.start.run d.parameters
  distinct : DistinctNames decs

theorem addMethodArgs_scopes (args : List (Typ × Ident)) : ∀ (vars : List TVariable) (scope : VariableScope),
    (⟨(args.foldl addMethodArg (vars, scope)).1.length, [(args.foldl addMethodArg (vars, scope)).2]⟩ : Scopes Ident) =
      (⟨vars.length, [scope]⟩ : Scopes Ident).run (args.map fun a => .declare a.2) := by
  induction args with
  | nil => exact fun vars scope => rfl
  | cons arg args ih =>
    intro vars scope
    rw [List.foldl_cons, addMethodArg, ih, List.length_append]
    rfl

/-- A name that is not in the table is new. -/
theorem nodup_snoc {names : List Ident} {scope : List (Ident × Nat)} (nam : Ident)
    (hscope : ∀ nam (i : Nat), scope.lookup nam = some i ↔ names[i]? = some nam) (hnames : names.Nodup) :
    (names ++ [nam]).Nodup ↔ ¬ scopeMember nam scope = true := by
  have hmem : scopeMember nam scope = true ↔ nam ∈ names := by
    rw [scopeMember, Option.isSome_iff_exists, List.mem_iff_getElem?]
    exact exists_congr fun i => hscope nam i
  rw [hmem, List.nodup_append]
  constructor
  · rintro ⟨-, -, hne⟩ hnam
    exact hne nam hnam nam List.mem_cons_self rfl
  · intro hnam
    refine ⟨hnames, List.pairwise_singleton _ nam, ?_⟩
    rintro a ha b hb rfl
    rw [List.mem_singleton.mp hb] at ha
    exact hnam ha

theorem addToProgram_outcome (hp : p.Scanned decs) (hs : p.ScannedScopes decs) (dec : Declaration) :
    Outcome (fun p' => p'.ScannedScopes (decs ++ [dec])) (¬ DistinctNames (decs ++ [dec]))
      (addToProgram p dec) := by
  cases dec with
  | methodDeclaration typ nam args body =>
    have hglobals : globalNames (decs ++ [.methodDeclaration typ nam args body]) = globalNames decs := by
      rw [globalNames, List.filterMap_append]
      exact List.append_nil _
    have hmethods : methodDecs (decs ++ [.methodDeclaration typ nam args body]) =
        methodDecs decs ++ [⟨typ, nam, args, body⟩] := by
      rw [methodDecs, List.filterMap_append]
      rfl
    have hnodup := nodup_snoc nam hp.names hs.distinct.methods
    rw [addToProgram]
    dsimp only
    split
    · next hmem =>
      refine ⟨fun _ hr => (by cases hr), fun _ _ hdistinct => hnodup.mp ?_ hmem⟩
      have hnames := hdistinct.methods
      rwa [hmethods, List.map_append] at hnames
    · next hmem =>
      refine .ok ⟨?_, ?_, ?_, ⟨?_, ?_⟩⟩
      · rw [hglobals]
        exact hs.globals
      · rw [hglobals]
        exact hs.count
      · rw [hmethods, List.map_append, List.map_append, hs.methods]
        exact congrArg (_ ++ [·]) (addMethodArgs_scopes args [] [])
      · rw [hglobals]
        exact hs.distinct.globals
      · rw [hmethods, List.map_append]
        exact hnodup.mpr hmem
  | globalVariableDeclaration typ nam =>
    have hglobals : globalNames (decs ++ [.globalVariableDeclaration typ nam]) = globalNames decs ++ [nam] := by
      rw [globalNames, List.filterMap_append]
      rfl
    have hmethods : methodDecs (decs ++ [.globalVariableDeclaration typ nam]) = methodDecs decs := by
      rw [methodDecs, List.filterMap_append]
      exact List.append_nil _
    have hnodup := nodup_snoc nam hs.globals hs.distinct.globals
    rw [addToProgram]
    split
    · next hmem =>
      refine ⟨fun _ hr => (by cases hr), fun _ _ hdistinct => hnodup.mp ?_ hmem⟩
      have hnames := hdistinct.globals
      rwa [hglobals] at hnames
    · next hmem =>
      have hnone : p.varScope.lookup nam = none := Option.not_isSome_iff_eq_none.mp hmem
      refine .ok ⟨fun name i => ?_, ?_, ?_, ⟨?_, ?_⟩⟩
      · rw [hglobals, hs.count]
        exact lookup_append hs.globals hnone name i
      · rw [hglobals, List.length_append, List.length_append, hs.count]
        rfl
      · rw [hmethods]
        exact hs.methods
      · rw [hglobals]
        exact hnodup.mpr hmem
      · rw [hmethods]
        exact hs.distinct.methods

theorem DistinctNames.of_append {rest : List Declaration} (h : DistinctNames (decs ++ rest)) :
    DistinctNames decs where
  globals := by
    have hnames := h.globals
    rw [globalNames, List.filterMap_append] at hnames
    exact (List.nodup_append.mp hnames).1
  methods := by
    have hnames := h.methods
    rw [methodDecs, List.filterMap_append, List.map_append] at hnames
    exact (List.nodup_append.mp hnames).1

theorem addToPrograms_outcome : ∀ (rest : List Declaration) {decs : List Declaration} {p : TProgram},
    p.Scanned decs → p.ScannedScopes decs →
      Outcome (fun p' => p'.ScannedScopes (decs ++ rest)) (¬ DistinctNames (decs ++ rest))
        (rest.foldlM addToProgram p)
  | [], decs, p, hp, hs => by
    rw [List.append_nil]
    exact .ok hs
  | dec :: rest, decs, p, hp, hs => by
    rw [List.foldlM_cons, List.append_cons]
    have hone := (addToProgram_outcome hp hs dec).and fun p' => addToProgram_scanned hp
    refine (hone.mono (fun _ h => h) fun h hdistinct => h hdistinct.of_append).bind ?_
    rintro p' ⟨hs', hp'⟩
    exact addToPrograms_outcome rest hp' hs'

/-- The tables that every body of the program starts from. -/
structure TProgram.GlobalScopes (p : TProgram) (globals : List Ident) : Prop where
  scope : ∀ nam (i : Nat), p.varScope.lookup nam = some i ↔ globals[i]? = some nam
  count : p.vars.length = globals.length
  numbered : p.VarsNumbered

variable {d : MethodDec} {m : TMethod}

/-- A body starts in the scope of the parameters. -/
theorem TProgram.GlobalScopes.models (hp : p.GlobalScopes globals) (hm : m ∈ p.methods)
    (hscopes : m.scopes = Scopes.start.run d.parameters) : Models globals d.parameters (p.tables m) where
  inside := by
    have hdeclares := encloses_declares (d.args.map (·.2))
    rw [List.map_map] at hdeclares
    exact hdeclares.inside
  scopes := hscopes
  globalScope := hp.scope
  globalCount := hp.count
  localNumbered := hp.numbered.locals m hm
  globalNumbered := hp.numbered.globals

/-- One body is put into its skeleton. -/
theorem buildTMethod_outcome {k : Nat} (hid : p.methodScope.lookup d.nam = some k)
    (hget : p.methods[k]? = some m) (hmodels : Models globals d.parameters (p.tables m)) :
    Outcome (fun p' => ∃ new, p' = { p with methods := p.methods.set k new } ∧ BodyScoped globals d new)
      d.Redefines (buildTMethod p (.methodDeclaration d.typ d.nam d.args d.body)) := by
  have hbuiltin : (syscalls.lookup d.nam).isNone = false → d.Redefines := by
    intro hsys
    rw [Option.isNone_eq_false_iff] at hsys
    exact .inl hsys
  refine (guardError_outcome fun hb _ _ => hbuiltin hb).bind fun _ hnone => ?_
  rw [hid]
  show Outcome _ _ (maybeToError _ p.methods[k]? >>= _)
  rw [hget]
  refine ((buildTStatements_outcome d.body hmodels).mono (fun _ h => h) .inr).bind ?_
  rintro ⟨tStats, st⟩ hst
  dsimp only
  split
  · refine .ok ⟨_, rfl, hst.bound, ?_⟩
    rintro (hsys | hagain)
    · rw [Option.isNone_iff_eq_none.mp hnone] at hsys
      exact (nomatch hsys)
    · exact hst.fresh hagain
  · exact .error (fun _ => by simp)

/-- The bodies are checked in order: `done` are the methods that have theirs. -/
theorem buildTMethods_outcome : ∀ (rest : List Declaration) (done : List MethodDec)
    (bodies skeletons : List TMethod) {p : TProgram}, p.GlobalScopes globals →
      (∀ nam (i : Nat), p.methodScope.lookup nam = some i ↔
        ((done ++ methodDecs rest).map (·.nam))[i]? = some nam) →
      p.methods = bodies ++ skeletons → List.Forall₂ (BodyScoped globals) done bodies →
      skeletons.map (·.scopes) = (methodDecs rest).map (fun d => Scopes.start.run d.parameters) →
        Outcome (fun p' => List.Forall₂ (BodyScoped globals) (done ++ methodDecs rest) p'.methods)
          (∃ d ∈ methodDecs rest, d.Redefines) (rest.foldlM buildTMethod p)
  | [], done, bodies, skeletons, p, hp, hnames, hmethods, hdone, hskeletons => by
    obtain rfl : skeletons = [] := List.map_eq_nil_iff.mp hskeletons
    refine .ok ?_
    rw [List.append_nil] at hmethods
    show List.Forall₂ _ (done ++ []) p.methods
    rwa [hmethods, List.append_nil]
  | .globalVariableDeclaration _ _ :: rest, done, bodies, skeletons, p, hp, hnames, hmethods, hdone,
    hskeletons => buildTMethods_outcome rest done bodies skeletons hp hnames hmethods hdone hskeletons
  | .methodDeclaration typ nam args body :: rest, done, bodies, skeletons, p, hp, hnames, hmethods, hdone,
    hskeletons => by
    have hdecs : methodDecs (.methodDeclaration typ nam args body :: rest) =
        ⟨typ, nam, args, body⟩ :: methodDecs rest := rfl
    rw [hdecs] at hnames hskeletons ⊢
    obtain ⟨m, skeletons, rfl, hm, hskeletons⟩ := List.map_eq_cons_iff.mp hskeletons
    have hlen : bodies.length = done.length := hdone.length_eq.symm
    have hget : p.methods[done.length]? = some m := by
      rw [hmethods, ← hlen, List.getElem?_append_right (Nat.le_refl _), Nat.sub_self]
      rfl
    have hid : p.methodScope.lookup nam = some done.length := (hnames nam done.length).mpr (by simp)
    have hone := buildTMethod_outcome (d := ⟨typ, nam, args, body⟩) hid hget
      (hp.models (List.mem_of_getElem? hget) hm)
    rw [List.foldlM_cons]
    refine ((hone.and fun p' => buildTMethod_numbered hp.numbered).mono (fun _ h => h)
      fun h => ⟨_, List.mem_cons_self, h⟩).bind ?_
    rintro _ ⟨⟨new, rfl, hnew⟩, hnumbered⟩
    have hp' : TProgram.GlobalScopes { p with methods := p.methods.set done.length new } globals :=
      ⟨hp.scope, hp.count, hnumbered⟩
    rw [List.append_cons]
    refine (buildTMethods_outcome rest (done ++ [⟨typ, nam, args, body⟩]) (bodies ++ [new]) skeletons hp'
      ?_ ?_ ?_ hskeletons).mono (fun _ h => h) ?_
    · rwa [← List.append_cons]
    · show p.methods.set done.length new = _
      rw [hmethods, ← hlen, List.set_append_right _ _ (Nat.le_refl _), Nat.sub_self, List.set_cons_zero,
        List.append_cons]
    · exact List.rel_append hdone (.cons hnew .nil)
    · rintro ⟨d, hd, hredefines⟩
      exact ⟨d, List.mem_cons_of_mem _ hd, hredefines⟩

/-- A program is checked: what its references are, and when it is rejected for a name defined again. -/
theorem buildTProgram_outcome (decs : List Declaration) :
    Outcome (fun p => List.Forall₂ (BodyScoped (globalNames decs)) (methodDecs decs) p.methods ∧
      DistinctNames decs) (Redefined decs) (buildTProgram decs) := by
  have hscanned : TProgram.Scanned ⟨[], [], [], []⟩ [] :=
    ⟨rfl, fun _ _ => by constructor <;> intro h <;> exact (nomatch h), rfl, rfl⟩
  have hscopes : TProgram.ScannedScopes ⟨[], [], [], []⟩ [] :=
    ⟨fun _ _ => by constructor <;> intro h <;> exact (nomatch h), rfl, rfl, ⟨.nil, .nil⟩⟩
  have hnumbered : TProgram.VarsNumbered ⟨[], [], [], []⟩ :=
    ⟨fun _ _ hv => (nomatch hv), fun _ hm => (nomatch hm)⟩
  have hscan : Outcome _ _ (scanDecs decs) := addToPrograms_outcome decs hscanned hscopes
  refine ((hscan.and fun p h => (⟨scanDecs_scanned h,
    foldlM_keeps (fun _ _ _ => addToProgram_numbered) decs hnumbered h⟩ :
      p.Scanned decs ∧ p.VarsNumbered)).mono (fun _ h => h) .inl).bind ?_
  rintro p ⟨hs, hp, hvars⟩
  exact (buildTMethods_outcome decs [] [] p.methods
    ⟨hs.globals, hs.count, hvars⟩ hp.names rfl .nil hs.methods).mono (fun p' h => ⟨h, hs.distinct⟩) .inr

theorem BodyScoped.single (h : BodyScoped globals d m) (hparameters : (d.args.map (·.2)).Nodup)
    {evs : List (ScopeEvent Ident)} (hevs : evs <+: d.parameters ++ scopeEvents (occurrencesAll false d.body))
    {nam : Ident} {k k' : Nat} (hk : Resolves evs nam k) (hk' : Resolves evs nam k') : k = k' := by
  obtain ⟨rest, hrest⟩ := hevs
  refine Resolves.unique (fun hagain => ?_) hk hk'
  have hall : Redeclares [] (d.parameters ++ scopeEvents (occurrencesAll false d.body)) := by
    rw [← hrest, redeclares_append]
    exact .inl hagain
  rcases redeclares_append.mp hall with hparam | hbody
  · refine not_redeclares_declares hparameters ?_
    rw [List.map_map]
    exact hparam
  · exact h.fresh (.inr hbody)

/-- **Lexical scoping.**  In an accepted program every reference is to the innermost declaration in front
    of it, a method has one variable for each declaration, and no name is defined again; a program that is
    rejected for a name defined again has one; and behind a block the names mean what they meant before. -/
theorem buildTProgram_scoped (decs : List Declaration) :
    (∀ p, buildTProgram decs = .ok p →
      List.Forall₂ (LexicallyScoped (globalNames decs)) (methodDecs decs) p.methods ∧
        varTypes p.vars = globalTypes decs ∧ NumberedVars p.vars ∧ ¬ Redefined decs) ∧
    (∀ message, buildTProgram decs = .error (.redefine message) → Redefined decs) ∧
    ∀ stats st t st', buildTStatement (.block stats) st = .ok (t, st') →
      st'.varScopes = st.varScopes ∧ st'.globalVarScope = st.globalVarScope := by
  refine ⟨fun p hp => ?_, (buildTProgram_outcome decs).redefine, fun stats _ _ _ => buildTBlock_outer stats⟩
  obtain ⟨hbodies, hdistinct⟩ := (buildTProgram_outcome decs).result p hp
  have hdeclared := buildTProgram_declared hp
  have hnumbered := buildTProgram_numbered hp
  refine ⟨List.forall₂_iff_get.mpr ⟨hbodies.length_eq, fun i hd hm => ?_⟩, hdeclared.globals,
    hnumbered.globals, ?_⟩
  · have hbody := (List.forall₂_iff_get.mp hbodies).2 i hd hm
    refine { hbody with
      types := ?_
      numbered := hnumbered.locals _ (List.get_mem ..)
      single := fun hparameters evs hevs nam k k' => hbody.single hparameters hevs }
    have htypes := congrArg (·[i]?) hdeclared.locals
    simpa [hd, hm] using htypes
  · rintro (hnames | ⟨d, hd, hagain⟩)
    · exact hnames hdistinct
    · obtain ⟨i, hi, rfl⟩ := List.mem_iff_getElem.mp hd
      have hbody := (List.forall₂_iff_get.mp hbodies).2 i hi (hbodies.length_eq ▸ hi)
      exact hbody.fresh hagain

/-- `short x; void main() { short x; { short x; x = 1; } x = 2; }` -/
def nestedScopes : List Declaration :=
  [.globalVariableDeclaration .short "x",
   .methodDeclaration .void "main" []
     [.variableDeclarationStatement .short "x" none,
      .block [.variableDeclarationStatement .short "x" none,
        .expressionStatement (.assignment (.variableAccess "x") (.shortLiteral 1))],
      .expressionStatement (.assignment (.variableAccess "x") (.shortLiteral 2))]]

/-- The inner variable is hidden behind its block, and both hide the global one. -/
theorem buildTProgram_scoped_nested : ∃ p, buildTProgram nestedScopes = .ok p ∧
    List.Forall₂ (LexicallyScoped ["x"]) (methodDecs nestedScopes) p.methods ∧
    p.methods.map (fun m => statementRefs m.body) = [[.local 1, .local 0]] :=
  ⟨_, rfl, ((buildTProgram_scoped nestedScopes).1 _ rfl).1, rfl⟩

/-- `if (1) short y;` -/
def declaringBody : Statement :=
  .ifStatement (.shortLiteral 1) (.variableDeclarationStatement .short "y" none) none

/-- `y = 1;` -/
def useOfY : Statement := .expressionStatement (.assignment (.variableAccess "y") (.shortLiteral 1))

/-- What other scoping rules would say of five programs: a body without braces is no scope, a global may be
    declared behind its use, two parameters may have one name, an earlier error hides a repeated name, and
    the name of a system call is taken. -/
theorem scoping_not_stricter :
    ((∃ p, buildTProgram [.methodDeclaration .void "main" [] [declaringBody, useOfY]] = .ok p ∧
        p.methods.map (fun m => statementRefs m.body) = [[.local 0]]) ∧
      Undeclared (scopeEvents (occurrences true declaringBody)) "y") ∧
    (∃ p, buildTProgram [.methodDeclaration .void "main" [] [useOfY], .globalVariableDeclaration .short "y"] =
        .ok p ∧ p.methods.map (fun m => statementRefs m.body) = [[.global 0]]) ∧
    (∃ p, buildTProgram [.methodDeclaration .void "main" [(.short, "y"), (.short, "y")] [useOfY]] = .ok p) ∧
    buildTProgram [.methodDeclaration .void "main" [] [useOfY, .variableDeclarationStatement .short "y" none,
      .variableDeclarationStatement .short "y" none]] = .error (.undefinedVarError "y") ∧
    ∃ message, buildTProgram [.methodDeclaration .void "delay" [] []] = .error (.redefine message) := by
  refine ⟨⟨⟨_, rfl, rfl⟩, ?_⟩, ⟨_, rfl, rfl⟩, ⟨_, rfl⟩, rfl, _, rfl⟩
  exact Scopes.undeclared_of_find (occurrences_balanced true declaringBody).inside rfl

end KeyboardFirmware.Compiler
