/-
  The tables of a program against its declarations.

  The type checker keeps one entry for every global variable and every method, in the order of the
  source: its types are those the declarations and the bodies write down, and a name stands for the
  method of that name (`buildTProgram_declared`).
-/
import KeyboardFirmware.Compiler.Checked

namespace KeyboardFirmware.Compiler

/-! ## What a source declares -/

/-- A method declaration. -/
structure MethodDec where
  typ : Typ
  nam : Ident
  args : List (Typ × Ident)
  body : List Statement

/-- The methods of a source, in order. -/
def methodDecs (decs : List Declaration) : List MethodDec :=
  decs.filterMap fun
    | .methodDeclaration typ nam args body => some ⟨typ, nam, args, body⟩
    | .globalVariableDeclaration _ _ => none

/-- The types of the global variables of a source, in order. -/
def globalTypes (decs : List Declaration) : List Typ :=
  decs.filterMap fun
    | .methodDeclaration _ _ _ _ => none
    | .globalVariableDeclaration typ _ => some typ

mutual

/-- The types of the variables that a statement declares, in order. -/
def declaredTypes : Statement → List Typ
  | .block stats => declaredTypesAll stats
  | .ifStatement _ thenBody elseBody => declaredTypes thenBody ++ declaredTypesElse elseBody
  | .whileStatement _ body => declaredTypes body
  | .forStatement _ _ _ body => declaredTypes body
  | .variableDeclarationStatement typ _ _ => [typ]
  | .expressionStatement _ => []
  | .returnValueStatement _ => []
  | .returnStatement => []
  | .exitStatement => []
  | .breakStatement => []
  | .continueStatement => []

def declaredTypesAll : List Statement → List Typ
  | [] => []
  | s :: ss => declaredTypes s ++ declaredTypesAll ss

def declaredTypesElse : Option Statement → List Typ
  | none => []
  | some s => declaredTypes s

end

/-- The types of the arguments of a method. -/
def MethodDec.argTypes (d : MethodDec) : List Typ := d.args.map (·.1)

/-- The types of all its variables: the arguments come first. -/
def MethodDec.localTypes (d : MethodDec) : List Typ := d.argTypes ++ declaredTypesAll d.body

/-- The types of some variables. -/
def varTypes (vars : List TVariable) : List Typ := vars.map (·.typ)

/-- Variables with the numbers of their places. -/
def NumberedVars (vars : List TVariable) : Prop := ∀ (i : Nat) v, vars[i]? = some v → v.id = i

/-- Some variables, and more behind them. -/
def addVars (vars : List TVariable) (ts : List Typ) : List TVariable :=
  ts.foldl (fun vs t => vs ++ [⟨vs.length, t⟩]) vars

/-- The tables of a program are those of its source. -/
structure TProgram.Declared (p : TProgram) (decs : List Declaration) : Prop where
  globals : varTypes p.vars = globalTypes decs
  names : ∀ nam (i : Nat), p.methodScope.lookup nam = some i ↔
    ((methodDecs decs).map (·.nam))[i]? = some nam
  args : p.methods.map (·.argTypes) = (methodDecs decs).map (·.argTypes)
  locals : p.methods.map (fun m => varTypes m.vars) = (methodDecs decs).map (·.localTypes)

/-! ## The skeleton -/

/-- The same of a skeleton, whose methods have their arguments only. -/
structure TProgram.Scanned (p : TProgram) (decs : List Declaration) : Prop where
  globals : varTypes p.vars = globalTypes decs
  names : ∀ nam (i : Nat), p.methodScope.lookup nam = some i ↔
    ((methodDecs decs).map (·.nam))[i]? = some nam
  args : p.methods.map (·.argTypes) = (methodDecs decs).map (·.argTypes)
  locals : p.methods.map (fun m => varTypes m.vars) = (methodDecs decs).map (·.argTypes)

theorem varTypes_addVars : ∀ (ts : List Typ) (vars : List TVariable),
    varTypes (addVars vars ts) = varTypes vars ++ ts
  | [], _ => (List.append_nil _).symm
  | t :: ts, vars => by
    rw [addVars, List.foldl_cons, ← addVars, varTypes_addVars ts]
    simp [varTypes]

theorem NumberedVars.addVars : ∀ (ts : List Typ) {vars : List TVariable}, NumberedVars vars →
    NumberedVars (addVars vars ts)
  | [], _, h => h
  | t :: ts, vars, h => by
    refine NumberedVars.addVars ts fun i v hv => ?_
    rw [List.getElem?_append] at hv
    split at hv
    · exact h i v hv
    · next hge =>
      obtain ⟨hlt, rfl⟩ := List.getElem?_eq_some_iff.mp hv
      rw [List.length_singleton] at hlt
      rw [List.getElem_singleton]
      show vars.length = i
      omega

theorem addVars_append (vars : List TVariable) (ts us : List Typ) :
    addVars vars (ts ++ us) = addVars (addVars vars ts) us := List.foldl_append

theorem addMethodArgs_vars (args : List (Typ × Ident)) : ∀ (vars : List TVariable) (scope : VariableScope),
    (args.foldl addMethodArg (vars, scope)).1 = addVars vars (args.map (·.1)) := by
  induction args with
  | nil => exact fun vars scope => rfl
  | cons arg args ih =>
    intro vars scope
    exact ih _ _

/-- A new name at the end of some others. -/
theorem lookup_append {names : List Ident} {scope : MethodScope} {new : Ident}
    (h : ∀ nam (i : Nat), scope.lookup nam = some i ↔ names[i]? = some nam)
    (hnew : scope.lookup new = none) (nam : Ident) (i : Nat) :
    ((new, names.length) :: scope).lookup nam = some i ↔ (names ++ [new])[i]? = some nam := by
  by_cases hnam : nam = new
  · subst hnam
    have hold : ∀ j : Nat, names[j]? ≠ some nam := by
      intro j hj
      rw [(h nam j).mpr hj] at hnew
      exact (nomatch hnew)
    rw [List.lookup_cons_self, Option.some.injEq, List.getElem?_append]
    split
    · next hlt => exact iff_of_false (Nat.ne_of_gt hlt) (hold i)
    · next hge =>
      rw [List.getElem?_singleton]
      split
      · next hi => exact iff_of_true (by omega) rfl
      · next hi => exact iff_of_false (by omega) (by simp)
  · have hbeq : (nam == new) = false := by simpa using hnam
    rw [List.lookup_cons, hbeq, h nam i, List.getElem?_append]
    split
    · exact Iff.rfl
    · next hge =>
      rw [List.getElem?_eq_none (Nat.le_of_not_lt hge), List.getElem?_singleton]
      split
      · simpa using fun h => hnam h.symm
      · exact Iff.rfl

variable {p p' : TProgram} {decs : List Declaration} {dec : Declaration}

theorem addToProgram_scanned (hp : p.Scanned decs) (h : addToProgram p dec = .ok p') :
    p'.Scanned (decs ++ [dec]) := by
  have hlen : p.methods.length = ((methodDecs decs).map (·.nam)).length := by
    rw [← List.length_map (·.argTypes), hp.args, List.length_map, List.length_map]
  cases dec with
  | methodDeclaration typ nam args body =>
    simp only [addToProgram] at h
    split at h
    · cases h
    · next hnew =>
      obtain rfl := Except.ok.inj h
      have hnone : p.methodScope.lookup nam = none := by
        unfold scopeMember at hnew
        exact Option.not_isSome_iff_eq_none.mp hnew
      have hdecs : methodDecs (decs ++ [.methodDeclaration typ nam args body]) =
          methodDecs decs ++ [⟨typ, nam, args, body⟩] := by
        rw [methodDecs, List.filterMap_append]
        rfl
      refine ⟨?_, fun name i => ?_, ?_, ?_⟩
      · rw [hp.globals, globalTypes, globalTypes, List.filterMap_append]
        exact (List.append_nil _).symm
      · rw [hdecs, List.map_append, hlen]
        exact lookup_append hp.names hnone name i
      · rw [hdecs, List.map_append, List.map_append, hp.args]
        rfl
      · rw [hdecs, List.map_append, List.map_append, hp.locals, List.map_singleton, List.map_singleton,
          addMethodArgs_vars, varTypes_addVars]
        rfl
  | globalVariableDeclaration typ nam =>
    simp only [addToProgram] at h
    split at h
    · cases h
    · obtain rfl := Except.ok.inj h
      have hdecs : methodDecs (decs ++ [.globalVariableDeclaration typ nam]) = methodDecs decs := by
        rw [methodDecs, List.filterMap_append]
        exact List.append_nil _
      refine ⟨?_, ?_, ?_, ?_⟩
      · rw [varTypes, List.map_append, ← varTypes, hp.globals, globalTypes, globalTypes,
          List.filterMap_append]
        rfl
      · rw [hdecs]
        exact hp.names
      · rw [hdecs]
        exact hp.args
      · rw [hdecs]
        exact hp.locals

theorem addToPrograms_scanned : ∀ (rest : List Declaration) {decs : List Declaration} {p : TProgram},
    p.Scanned decs → rest.foldlM addToProgram p = .ok p' → p'.Scanned (decs ++ rest)
  | [], decs, p, hp, h => by
    obtain rfl := Except.ok.inj h
    rw [List.append_nil]
    exact hp
  | dec :: rest, decs, p, hp, h => by
    rw [List.foldlM_cons] at h
    obtain ⟨p1, h1, h⟩ := bind_eq_ok.mp h
    rw [List.append_cons]
    exact addToPrograms_scanned rest (addToProgram_scanned hp h1) h

theorem scanDecs_scanned (h : scanDecs decs = .ok p) : p.Scanned decs := by
  have hempty : TProgram.Scanned ⟨[], [], [], []⟩ [] :=
    ⟨rfl, fun _ _ => by constructor <;> intro h <;> exact (nomatch h), rfl, rfl⟩
  exact addToPrograms_scanned decs hempty h

/-! ## The variables of the bodies -/

theorem addLocalVariable_vars {lvTyp : Typ} {lvNam : Ident} {varId : VariableID}
    {st st' : BindingState} (h : addLocalVariable lvTyp lvNam st = .ok (varId, st')) :
    st'.varIndex = addVars st.varIndex [lvTyp] := by
  unfold addLocalVariable at h
  split at h
  · cases h
  · obtain ⟨u, -, h⟩ := bind_eq_ok.mp h
    obtain ⟨-, rfl⟩ := Prod.mk.inj (Except.ok.inj h)
    rfl

mutual

/-- A statement adds the variables that it declares. -/
theorem buildTStatement_vars : ∀ (s : Statement) {st st' : BindingState} {t : TStatement},
    buildTStatement s st = .ok (t, st') →
      st'.varIndex = addVars st.varIndex (declaredTypes s)
  | .block stats, st, st', t, h => by
    simp only [buildTStatement, bind_eq_ok, Prod.exists] at h
    obtain ⟨tStats, st1, hstats, h⟩ := h
    have hvars := buildTStatements_vars stats hstats
    split at h
    · exact (nomatch h)
    · obtain ⟨-, rfl⟩ := Prod.mk.inj (Except.ok.inj h)
      exact hvars
  | .ifStatement expr thenBody elseBody, st, st', t, h => by
    simp only [buildTStatement, bind_eq_ok, Prod.exists] at h
    obtain ⟨e, -, e', -, tThen, st1, hthen, tElse, st2, helse, h⟩ := h
    obtain ⟨-, rfl⟩ := Prod.mk.inj (Except.ok.inj h)
    rw [buildTElse_vars elseBody helse, buildTStatement_vars thenBody hthen, ← addVars_append]
    rfl
  | .whileStatement cond body, st, st', t, h => by
    simp only [buildTStatement, bind_eq_ok, Prod.exists] at h
    obtain ⟨c, -, c', -, tBody, st1, hbody, h⟩ := h
    obtain ⟨-, rfl⟩ := Prod.mk.inj (Except.ok.inj h)
    have hvars := buildTStatement_vars body hbody
    exact hvars
  | .forStatement initializer cond iter body, st, st', t, h => by
    simp only [buildTStatement, bind_eq_ok, Prod.exists] at h
    obtain ⟨i, -, c, -, c', -, it, -, tBody, st1, hbody, h⟩ := h
    obtain ⟨-, rfl⟩ := Prod.mk.inj (Except.ok.inj h)
    have hvars := buildTStatement_vars body hbody
    exact hvars
  | .variableDeclarationStatement typ nam initializer, st, st', t, h => by
    simp only [buildTStatement] at h
    split at h
    · exact (nomatch h)
    obtain ⟨⟨varId, st1⟩, hadd, h⟩ := bind_eq_ok.mp h
    have hvars := addLocalVariable_vars hadd
    cases initializer with
    | none =>
      obtain ⟨-, rfl⟩ := Prod.mk.inj (Except.ok.inj h)
      exact hvars
    | some expr =>
      simp only [bind_eq_ok] at h
      obtain ⟨e, -, e', -, h⟩ := h
      obtain ⟨-, rfl⟩ := Prod.mk.inj (Except.ok.inj h)
      exact hvars
  | .expressionStatement expr, st, st', t, h => by
    simp only [buildTStatement, bind_eq_ok] at h
    obtain ⟨e, -, e', -, h⟩ := h
    obtain ⟨-, rfl⟩ := Prod.mk.inj (Except.ok.inj h)
    rfl
  | .returnValueStatement expr, st, st', t, h => by
    simp only [buildTStatement, bind_eq_ok] at h
    obtain ⟨e, -, e', -, u, -, h⟩ := h
    obtain ⟨-, rfl⟩ := Prod.mk.inj (Except.ok.inj h)
    rfl
  | .returnStatement, st, st', t, h => by
    obtain ⟨u, -, h⟩ := bind_eq_ok.mp h
    obtain ⟨-, rfl⟩ := Prod.mk.inj (Except.ok.inj h)
    rfl
  | .exitStatement, st, st', t, h => by
    obtain ⟨-, rfl⟩ := Prod.mk.inj (Except.ok.inj h)
    rfl
  | .breakStatement, st, st', t, h => by
    obtain ⟨u, -, h⟩ := bind_eq_ok.mp h
    obtain ⟨-, rfl⟩ := Prod.mk.inj (Except.ok.inj h)
    rfl
  | .continueStatement, st, st', t, h => by
    obtain ⟨u, -, h⟩ := bind_eq_ok.mp h
    obtain ⟨-, rfl⟩ := Prod.mk.inj (Except.ok.inj h)
    rfl

theorem buildTStatements_vars : ∀ (ss : List Statement) {st st' : BindingState}
    {ts : List TStatement}, buildTStatements ss st = .ok (ts, st') →
      st'.varIndex = addVars st.varIndex (declaredTypesAll ss)
  | [], st, st', ts, h => by
    obtain ⟨-, rfl⟩ := Prod.mk.inj (Except.ok.inj h)
    rfl
  | s :: ss, st, st', ts, h => by
    simp only [buildTStatements, bind_eq_ok, Prod.exists] at h
    obtain ⟨t, st1, hs, ts', st2, hss, h⟩ := h
    obtain ⟨-, rfl⟩ := Prod.mk.inj (Except.ok.inj h)
    rw [buildTStatements_vars ss hss, buildTStatement_vars s hs, ← addVars_append]
    rfl

theorem buildTElse_vars : ∀ (o : Option Statement) {st st' : BindingState}
    {t : Option TStatement}, buildTElse o st = .ok (t, st') →
      st'.varIndex = addVars st.varIndex (declaredTypesElse o)
  | none, st, st', t, h => by
    obtain ⟨-, rfl⟩ := Prod.mk.inj (Except.ok.inj h)
    rfl
  | some s, st, st', t, h => by
    simp only [buildTElse, bind_eq_ok, Prod.exists] at h
    obtain ⟨t', st1, hs, h⟩ := h
    obtain ⟨-, rfl⟩ := Prod.mk.inj (Except.ok.inj h)
    exact buildTStatement_vars s hs

end

/-! ## Programs -/

/-- The bodies are checked in order: `done` are the methods whose variables are all there. -/
theorem buildTMethods_declared : ∀ (rest : List Declaration) (done : List MethodDec) {p : TProgram},
    (∀ nam (i : Nat), p.methodScope.lookup nam = some i ↔
      ((done ++ methodDecs rest).map (·.nam))[i]? = some nam) →
    p.methods.map (fun m => varTypes m.vars) =
      done.map (·.localTypes) ++ (methodDecs rest).map (·.argTypes) →
    rest.foldlM buildTMethod p = .ok p' →
      p'.vars = p.vars ∧ p'.methodScope = p.methodScope ∧
        p'.methods.map (·.argTypes) = p.methods.map (·.argTypes) ∧
        p'.methods.map (fun m => varTypes m.vars) = (done ++ methodDecs rest).map (·.localTypes)
  | [], done, p, hnames, hlocals, h => by
    obtain rfl := Except.ok.inj h
    exact ⟨rfl, rfl, rfl, by simpa [methodDecs] using hlocals⟩
  | .globalVariableDeclaration _ _ :: rest, done, p, hnames, hlocals, h =>
    buildTMethods_declared rest done hnames hlocals h
  | .methodDeclaration typ nam args body :: rest, done, p, hnames, hlocals, h => by
    rw [List.foldlM_cons] at h
    obtain ⟨p1, h1, h⟩ := bind_eq_ok.mp h
    simp only [buildTMethod, bind_eq_ok, Prod.exists, maybeToError_ok] at h1
    obtain ⟨u, -, methodId, hid, m, hm, tStats, st, hbody, h1⟩ := h1
    split at h1
    case h_2 => cases h1
    case h_1 scope _ =>
    obtain rfl := Except.ok.inj h1
    have hdecs : methodDecs (.methodDeclaration typ nam args body :: rest) =
        ⟨typ, nam, args, body⟩ :: methodDecs rest := rfl
    rw [hdecs] at hnames hlocals
    -- the name is that of the first method whose body is to come
    obtain rfl : methodId = done.length := by
      have hhere := (hnames nam done.length).mpr (by simp)
      exact Option.some.inj (hid.symm.trans hhere)
    have hargs : varTypes m.vars = MethodDec.argTypes ⟨typ, nam, args, body⟩ := by
      have hget := congrArg (·[done.length]?) hlocals
      simpa [hm] using hget
    have hvars : varTypes st.varIndex = MethodDec.localTypes ⟨typ, nam, args, body⟩ := by
      rw [buildTStatements_vars body hbody, varTypes_addVars, hargs]
      rfl
    obtain ⟨hglobals, hscope, hsame, hall⟩ := buildTMethods_declared rest
      (done ++ [⟨typ, nam, args, body⟩]) (by simpa using hnames) (by
        rw [List.map_set, hlocals, hvars]
        simp) h
    refine ⟨hglobals, hscope, ?_, by rw [hall, hdecs]; simp⟩
    rw [hsame, List.map_set]
    refine List.ext_getElem? fun i => ?_
    rw [List.getElem?_set]
    split
    · next hi =>
      subst hi
      obtain ⟨hlt, rfl⟩ := List.getElem?_eq_some_iff.mp hm
      simp [hlt]
    · rfl

/-- **The tables of a checked program** are those of its source. -/
theorem buildTProgram_declared (h : buildTProgram decs = .ok p) : p.Declared decs := by
  obtain ⟨p0, hscan, h⟩ := bind_eq_ok.mp h
  have hp := scanDecs_scanned hscan
  obtain ⟨hglobals, hscope, hargs, hlocals⟩ :=
    buildTMethods_declared decs [] hp.names hp.locals h
  exact ⟨hglobals ▸ hp.globals, fun nam i => hscope ▸ hp.names nam i, hargs.trans hp.args, hlocals⟩

/-- The variables of a program have the numbers of their places. -/
structure TProgram.VarsNumbered (p : TProgram) : Prop where
  globals : NumberedVars p.vars
  locals : ∀ m ∈ p.methods, NumberedVars m.vars

theorem addToProgram_numbered (hp : p.VarsNumbered) (h : addToProgram p dec = .ok p') :
    p'.VarsNumbered := by
  cases dec with
  | methodDeclaration typ nam args body =>
    simp only [addToProgram] at h
    split at h
    · cases h
    · obtain rfl := Except.ok.inj h
      refine ⟨hp.globals, fun m hm => ?_⟩
      rcases List.mem_append.mp hm with hm | hm
      · exact hp.locals m hm
      · rw [List.mem_singleton.mp hm, addMethodArgs_vars]
        exact NumberedVars.addVars _ fun _ _ hv => (by cases hv)
  | globalVariableDeclaration typ nam =>
    simp only [addToProgram] at h
    split at h
    · cases h
    · obtain rfl := Except.ok.inj h
      exact ⟨NumberedVars.addVars [typ] hp.globals, hp.locals⟩

theorem buildTMethod_numbered (hp : p.VarsNumbered) (h : buildTMethod p dec = .ok p') :
    p'.VarsNumbered := by
  cases dec with
  | globalVariableDeclaration typ nam =>
    obtain rfl := Except.ok.inj h
    exact hp
  | methodDeclaration typ nam args body =>
    simp only [buildTMethod, bind_eq_ok, Prod.exists, maybeToError_ok] at h
    obtain ⟨u, -, methodId, -, m, hm, tStats, st, hbody, h⟩ := h
    split at h
    case h_2 => cases h
    case h_1 scope _ =>
    obtain rfl := Except.ok.inj h
    refine ⟨hp.globals, fun m' hm' => ?_⟩
    rcases List.mem_or_eq_of_mem_set hm' with hold | rfl
    · exact hp.locals m' hold
    · have hvars := buildTStatements_vars body hbody
      show NumberedVars st.varIndex
      rw [hvars]
      exact NumberedVars.addVars _ (hp.locals m (List.mem_of_getElem? hm))

theorem buildTProgram_numbered (h : buildTProgram decs = .ok p) : p.VarsNumbered := by
  obtain ⟨p0, hscan, h⟩ := bind_eq_ok.mp h
  have hempty : TProgram.VarsNumbered ⟨[], [], [], []⟩ :=
    ⟨fun _ _ hv => (nomatch hv), fun _ hm => (nomatch hm)⟩
  have hp0 := foldlM_keeps (fun _ _ _ => addToProgram_numbered) decs hempty hscan
  exact foldlM_keeps (fun _ _ _ => buildTMethod_numbered) decs hp0 h

/-- A call calls the method that it names. -/
theorem methodInvocation_named (hp : p.Checked) (hdecs : p.Declared decs) {m : TMethod} {nam : Ident}
    {args : List Expression} {t : Typ} {id : MethodID} {args' : List TExpression}
    (h : buildTExpression (p.tables m) (.methodInvocation nam args) = .ok (.methodCall t id args')) :
    ((methodDecs decs).map (·.nam))[id]? = some nam := by
  simp only [buildTExpression, bind_eq_ok, Prod.exists] at h
  obtain ⟨constr, ts, hres, u, -, tArgs, -, tArgs', -, h⟩ := h
  rcases orTry_eq_ok hres with hres | hres
  · obtain ⟨callee, hcallee, hres⟩ := bind_eq_ok.mp hres
    obtain ⟨rfl, rfl⟩ := Prod.mk.inj (Except.ok.inj hres)
    obtain ⟨i, hi, hcallee⟩ := bind_eq_ok.mp hcallee
    rw [maybeToError_ok] at hi hcallee
    obtain rfl : callee.id = id := by injection Except.ok.inj h
    rw [hp.numbered i callee hcallee]
    exact (hdecs.names nam i).mp hi
  · obtain ⟨⟨op, t', ts'⟩, -, hres⟩ := bind_eq_ok.mp hres
    obtain ⟨rfl, rfl⟩ := Prod.mk.inj (Except.ok.inj hres)
    exact (nomatch h)

end KeyboardFirmware.Compiler
