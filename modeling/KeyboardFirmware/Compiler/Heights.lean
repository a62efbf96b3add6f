/-
  The heights of the operand stack.

  Every instruction pops and pushes a number of bytes (`effect`).  A well-typed expression pushes the
  bytes of its type as a value and none when its value is not used (`exprCode_heights`), so statements
  start and end with an empty stack.  The labels that this gives the blocks are the heights along every
  path (`Arrives.height`), which is what makes the graph of a method balanced
  (`buildIRMethod_balanced`).
-/
import KeyboardFirmware.Compiler.MissingReturn
import KeyboardFirmware.Compiler.Arithmetic
import KeyboardFirmware.Compiler.Declared

namespace KeyboardFirmware.Compiler

/-! ## Effects -/

/-- The bytes that an instruction pops and those that it pushes. -/
def effect (tables : BindingState) : IRInstruction → Option (Nat × Nat)
  | .store i => tables.varIndex[i]?.map fun v => (typeBytes v.typ, 0)
  | .load i => tables.varIndex[i]?.map fun v => (0, typeBytes v.typ)
  | .gstore i => tables.globalVarIndex[i]?.map fun v => (typeBytes v.typ, 0)
  | .gload i => tables.globalVarIndex[i]?.map fun v => (0, typeBytes v.typ)
  | .bconst _ => some (0, typeBytes .byte)
  | .sconst _ => some (0, typeBytes .short)
  | .dup t => some (typeBytes t, 2 * typeBytes t)
  | .pop t => some (typeBytes t, 0)
  | .swap t => some (2 * typeBytes t, 2 * typeBytes t)
  | .arith t .complement => some (typeBytes t, typeBytes t)
  | .arith t .cmp => some (2 * typeBytes t, typeBytes .byte)
  | .arith t _ => some (2 * typeBytes t, typeBytes t)
  | .s2b => some (typeBytes .short, typeBytes .byte)
  | .b2s => some (typeBytes .byte, typeBytes .short)
  | .call i => tables.methodIndex[i]?.map fun m => (bytesOf m.argTypes, typeBytes m.retType)
  | .return t => some (typeBytes t, 0)
  | .exit => some (0, 0)
  | .syscall op =>
    (syscalls.find? fun s => s.2.1 = op).map fun s => (bytesOf s.2.2.2, typeBytes s.2.2.1)
  | .dummy _ => none

/-- What an instruction does to the height; a conditional edge pops the byte it looks at. -/
def heights (tables : BindingState) : Tracking Nat where
  step i h :=
    if isLeave i then none
    else (effect tables i).bind fun e => if e.1 ≤ h then some (h - e.1 + e.2) else none
  test h := if 1 ≤ h then some (h - 1) else none
  leaves i h := i = .exit ∨ ∃ t, i = .return t ∧ h = typeBytes t

variable {tables : BindingState} {i : IRInstruction} {a b h h' : Nat}

theorem heights_step (hi : isLeave i = false) (heff : effect tables i = some (a, b)) (h : Nat) :
    (heights tables).step i (h + a) = some (h + b) := by
  simp [heights, hi, heff]

theorem heights_step_some (hstep : (heights tables).step i h = some h') :
    isLeave i = false ∧ ∃ a b, effect tables i = some (a, b) ∧ a ≤ h ∧ h' = h - a + b := by
  simp only [heights] at hstep
  split at hstep
  · exact (nomatch hstep)
  next hi =>
    obtain ⟨⟨a, b⟩, heff, hstep⟩ := Option.bind_eq_some_iff.mp hstep
    split at hstep
    · next hle => exact ⟨by simpa using hi, a, b, heff, hle, (Option.some.inj hstep).symm⟩
    · exact (nomatch hstep)

theorem heights_walk (hi : isLeave i = false) (heff : effect tables i = some (a, b))
    (is : List IRInstruction) (h : Nat) :
    (heights tables).walk (i :: is) (h + a) = (heights tables).walk is (h + b) := by
  rw [Tracking.walk, heights_step hi heff, Option.bind_some]

theorem heights_test (h : Nat) : (heights tables).test (h + 1) = some h := by
  simp [heights]

/-! ## Codes that push -/

/-- A code that pushes `n` bytes. -/
def Pushes (n : Nat) (h h' : Nat) : Prop := h' = h + n

abbrev Pushing (tables : BindingState) (n : Nat) (c : Code) : Prop :=
  Tracks (heights tables) (Pushes n) c

variable {c c1 c2 : Code} {m n : Nat}

theorem Pushing.seq (h1 : Pushing tables m c1) (h2 : Pushing tables n c2) :
    Pushing tables (m + n) fun acc => c1 acc >>= c2 :=
  (Tracks.seq h1 h2).mono fun h h' hh' => ⟨h + m, rfl, by rw [Pushes, hh', Nat.add_assoc]⟩

theorem pushing_zero : Pushing tables 0 c ↔ Tracks (heights tables) Eq c :=
  ⟨fun h => h.mono fun _ _ heq => heq.symm, fun h => h.mono fun _ _ heq => heq.symm⟩

/-- Instructions that take what a code has pushed. -/
theorem Pushing.andThen (h : Pushing tables a c) {is : List IRInstruction}
    (hwalk : ∀ h, (heights tables).walk is (h + a) = some (h + b)) :
    Pushing tables b fun acc => c acc >>= appendInstructionsM is := by
  have his : Tracks (heights tables) (fun k k' => ∃ h, k = h + a ∧ k' = h + b) (appendInstructionsM is) :=
    appendInstructionsM_tracks fun k k' ⟨h, hk, hk'⟩ => by rw [hk, hk', hwalk]
  exact (Tracks.seq h his).mono fun h h' hh' => ⟨h + a, rfl, h, rfl, hh'⟩

theorem Pushing.andThenOne (h : Pushing tables a c) (hi : isLeave i = false)
    (heff : effect tables i = some (a, b)) :
    Pushing tables b fun acc => c acc >>= appendInstructionsM [i] :=
  h.andThen fun h => heights_walk hi heff [] h

theorem pushing_one (hi : isLeave i = false) (heff : effect tables i = some (0, b)) :
    Pushing tables b (appendInstructionsM [i]) :=
  appendInstructionsM_tracks fun h h' hh' => by
    rw [hh']
    exact heights_walk hi heff [] h

/-! ## Tables -/

/-- Variables and methods have the numbers of their places. -/
structure Indexed (tables : BindingState) : Prop where
  locals : NumberedVars tables.varIndex
  globals : NumberedVars tables.globalVarIndex
  methods : ∀ (i : Nat) m, tables.methodIndex[i]? = some m → m.id = i

theorem NumberedVars.getElem? {vars : List TVariable} {v : TVariable} (h : NumberedVars vars)
    (hv : v ∈ vars) : vars[v.id]? = some v := by
  obtain ⟨i, hi⟩ := List.mem_iff_getElem?.mp hv
  rw [h i v hi]
  exact hi

theorem Indexed.method (h : Indexed tables) {m : TMethod} (hm : m ∈ tables.methodIndex) :
    tables.methodIndex[m.id]? = some m := by
  obtain ⟨i, hi⟩ := List.mem_iff_getElem?.mp hm
  rw [h.methods i m hi]
  exact hi

theorem syscalls_find {nam : Ident} {op : SyscallOp} {t : Typ} {ts : List Typ}
    (h : (nam, op, t, ts) ∈ syscalls) :
    (syscalls.find? fun s => s.2.1 = op) = some (nam, op, t, ts) := by
  have hall : ∀ s ∈ syscalls, (syscalls.find? fun s' => s'.2.1 = s.2.1) = some s := by decide
  exact hall _ h

/-! ## Expressions -/

/-- The codes of an expression push what they should: its type as a value, nothing without use. -/
abbrev ExprHeights (tables : BindingState) (t : Typ) (c : ExprCode) : Prop :=
  ExprTracks (heights tables) (Pushes (typeBytes t)) (t = .byte) c

theorem ExprHeights.ofValue {t : Typ} (h1 : Pushing tables (typeBytes t) c1)
    (h2 : Pushing tables 0 c2) : ExprHeights tables t (.ofValue c1 c2) := by
  refine ExprTracks.ofValue h1 (pushing_zero.mp h2) ?_
  rintro rfl h
  exact ⟨h + 1, rfl, heights_test h⟩

theorem ExprHeights.ofCond {d : CondCode} (h1 : CondTracks (heights tables) d)
    (h2 : Pushing tables 0 c2) : ExprHeights tables .byte (.ofCond d c2) := by
  refine ExprTracks.ofCond h1 (pushing_zero.mp h2) ?_
  rintro h h' rfl
  exact ⟨rfl, rfl⟩

theorem ExprHeights.void {t : Typ} {c : ExprCode} (h : ExprHeights tables t c) :
    Pushing tables 0 c.void :=
  pushing_zero.mpr (ExprTracks.void h)

theorem pushing_booleanCast {t : Typ} (ht : t ≠ .void) (h : Pushing tables (typeBytes t) c) :
    Pushing tables 1 (booleanValue t c) := by
  cases t with
  | byte => exact (Tracks.seq h pure_tracks).mono fun h h' hh' => ⟨h', hh', rfl⟩
  | short => exact h.andThenOne rfl rfl
  | void => exact absurd rfl ht

theorem pushing_discard (t : Typ) (h : Pushing tables (typeBytes t) c) :
    Pushing tables 0 fun acc => c acc >>= discardValue t := by
  cases t with
  | void => exact (Tracks.seq h pure_tracks).mono fun h h' hh' => ⟨h', hh', rfl⟩
  | byte | short => exact h.andThenOne rfl rfl

theorem effect_irConst {t : Typ} (ht : t ≠ .void) (n : Nat) :
    effect tables (irConst t n) = some (0, typeBytes t) := by
  cases t with
  | byte | short => rfl
  | void => exact absurd rfl ht

theorem effect_opFor {op : BinaryOp} {aop : ArithOp} (h : opFor op = some aop) (t : Typ) :
    effect tables (.arith t aop) = some (2 * typeBytes t, typeBytes t) := by
  cases op <;> cases h <;> rfl

/-- A variable that is read, changed and written back. -/
structure StepInstrs (tables : BindingState) (t : Typ) (load store step : IRInstruction) : Prop where
  notVoid : t ≠ .void
  load_leave : isLeave load = false
  load_effect : effect tables load = some (0, typeBytes t)
  store_leave : isLeave store = false
  store_effect : effect tables store = some (typeBytes t, 0)
  step_leave : isLeave step = false
  step_effect : effect tables step = some (2 * typeBytes t, typeBytes t)

namespace StepInstrs

variable {t : Typ} {load store step : IRInstruction}

/-- The constant and the change, on the value of the variable. -/
theorem walk_change (h : StepInstrs tables t load store step) (is : List IRInstruction) (k : Nat) :
    (heights tables).walk (irConst t 1 :: step :: is) (k + typeBytes t) =
      (heights tables).walk is (k + typeBytes t) := by
  have hconst := @heights_walk tables _ _ _ (isLeave_irConst t 1) (effect_irConst h.notVoid 1)
    (step :: is) (k + typeBytes t)
  rw [Nat.add_zero, Nat.add_assoc, ← Nat.two_mul] at hconst
  rw [hconst, heights_walk h.step_leave h.step_effect]

theorem dup_effect : effect tables (.dup t) = some (typeBytes t, 2 * typeBytes t) := rfl

theorem unused (h : StepInstrs tables t load store step) :
    Pushing tables 0 (stepCode load store step t [] []) :=
  appendInstructionsM_tracks fun k k' hk => by
    rw [hk]
    show (heights tables).walk (load :: irConst t 1 :: step :: [store]) (k + 0) = some (k + 0)
    rw [heights_walk h.load_leave h.load_effect, h.walk_change,
      heights_walk h.store_leave h.store_effect]
    rfl

theorem changed (h : StepInstrs tables t load store step) :
    Pushing tables (typeBytes t) (stepCode load store step t [] [.dup t]) :=
  appendInstructionsM_tracks fun k k' hk => by
    rw [hk]
    show (heights tables).walk (load :: irConst t 1 :: step :: .dup t :: [store]) (k + 0) = some _
    rw [heights_walk h.load_leave h.load_effect, h.walk_change, heights_walk rfl dup_effect,
      Nat.two_mul, ← Nat.add_assoc, heights_walk h.store_leave h.store_effect]
    rfl

theorem original (h : StepInstrs tables t load store step) :
    Pushing tables (typeBytes t) (stepCode load store step t [.dup t] []) :=
  appendInstructionsM_tracks fun k k' hk => by
    rw [hk]
    show (heights tables).walk (load :: .dup t :: irConst t 1 :: step :: [store]) (k + 0) = some _
    rw [heights_walk h.load_leave h.load_effect, heights_walk rfl dup_effect, Nat.two_mul,
      ← Nat.add_assoc, h.walk_change, heights_walk h.store_leave h.store_effect]
    rfl

end StepInstrs

/-- The variable that `++` and `--` work on. -/
theorem stepInstrs_of_load (hi : Indexed tables) {t u : Typ} {v : VariableID} {step : IRInstruction}
    (ht : u = t) (hvoid : t ≠ .void) (hstep : isLeave step = false)
    (heff : effect tables step = some (2 * typeBytes t, typeBytes t)) :
    (WellTyped tables (.globalLoad u v) → StepInstrs tables t (.gload v) (.gstore v) step) ∧
      (WellTyped tables (.localLoad u v) → StepInstrs tables t (.load v) (.store v) step) := by
  subst ht
  refine ⟨fun hv => ⟨hvoid, rfl, ?_, rfl, ?_, hstep, heff⟩, fun hv => ⟨hvoid, rfl, ?_, rfl, ?_, hstep, heff⟩⟩
  · simp [effect, hi.globals.getElem? hv]
  · simp [effect, hi.globals.getElem? hv]
  · simp [effect, hi.locals.getElem? hv]
  · simp [effect, hi.locals.getElem? hv]

theorem prefixStep_heights (hi : Indexed tables) {t : Typ} {op : PrefixOp} {e : TExpression}
    (hop : op.isStep = true) (h : WellTyped tables (.prefixExpression t op e)) :
    ExprHeights tables t ((prefixStep op e).getD (.ofValue notMatched c2)) := by
  obtain ⟨ht, hvoid, -, hload, he⟩ := h
  have heff : effect tables (mkPrefixInstr t op) = some (2 * typeBytes t, typeBytes t) := by
    cases op <;> rfl
  have hleave : isLeave (mkPrefixInstr t op) = false := rfl
  cases e with
  | globalLoad u v =>
    obtain rfl : u = t := ht
    have hs := (stepInstrs_of_load hi rfl hvoid hleave heff).1 he
    exact .ofValue hs.changed hs.unused
  | localLoad u v =>
    obtain rfl : u = t := ht
    have hs := (stepInstrs_of_load hi rfl hvoid hleave heff).2 he
    exact .ofValue hs.changed hs.unused
  | _ => exact absurd (hload hop) Bool.false_ne_true

theorem postfixStep_heights (hi : Indexed tables) {t : Typ} {op : PostfixOp} {e : TExpression}
    (h : WellTyped tables (.postfixExpression t e op)) : ExprHeights tables t (postfixStep op e) := by
  obtain ⟨ht, hvoid, hload, he⟩ := h
  have heff : effect tables (mkPostfixInstr t op) = some (2 * typeBytes t, typeBytes t) := by
    cases op <;> rfl
  have hleave : isLeave (mkPostfixInstr t op) = false := rfl
  cases e with
  | globalLoad u v =>
    obtain rfl : u = t := ht
    have hs := (stepInstrs_of_load hi rfl hvoid hleave heff).1 he
    exact .ofValue hs.original hs.unused
  | localLoad u v =>
    obtain rfl : u = t := ht
    have hs := (stepInstrs_of_load hi rfl hvoid hleave heff).2 he
    exact .ofValue hs.original hs.unused
  | _ => exact absurd hload Bool.false_ne_true

theorem literal_heights {t : Typ} (hi : isLeave i = false) (heff : effect tables i = some (0, typeBytes t))
    (b : Bool) : ExprHeights tables t ⟨appendInstructionsM [i], pure, condConstant b⟩ :=
  ⟨pushing_one hi heff, pure_tracks, fun _ => condConstant_tracks b⟩

/-- A comparison leaves one byte: the result of the instruction, or the operand that is not zero. -/
theorem condComparison_heights {t : Typ} (ht : t ≠ .void) (op : BinaryOp) (zLhs zRhs : Bool)
    (h1 : Pushing tables (typeBytes t) c1) (h2 : Pushing tables (typeBytes t) c2) :
    CondTracks (heights tables) (condComparison t t op zLhs zRhs c1 c2) := by
  have hpure : Tracks (heights tables) (Pushes 0) pure := pushing_zero.mpr pure_tracks
  have htest : ∀ {R : Nat → Nat → Prop}, (∀ h, R h (h + 1)) →
      ∀ l, ∃ v, R l v ∧ (heights tables).test v = some l :=
    fun hR l => ⟨l + 1, hR l, heights_test l⟩
  have hcmp : Tracks (heights tables) (fun k k' => ∃ h, k = h + 2 * typeBytes t ∧ k' = h + 1)
      (appendInstructionsM [.arith t .cmp]) := by
    refine appendInstructionsM_tracks ?_
    rintro k k' ⟨h, rfl, rfl⟩
    exact heights_walk rfl rfl [] h
  cases zLhs with
  | true =>
    cases zRhs with
    | true =>
      -- the two zeros are refused
      exact condComparison_tracks op hpure hpure hpure fun hzero => (nomatch hzero)
    | false =>
      exact condComparison_tracks op hpure (pushing_booleanCast ht h2) hpure fun _ =>
        htest fun h => ⟨h + 1, ⟨h, rfl, rfl⟩, rfl⟩
  | false =>
    cases zRhs with
    | true =>
      exact condComparison_tracks op (pushing_booleanCast ht h1) hpure hpure fun _ =>
        htest fun h => ⟨h + 1, ⟨h + 1, rfl, rfl⟩, rfl⟩
    | false =>
      exact condComparison_tracks op h1 h2 hcmp fun _ => htest fun h =>
        ⟨h + 2 * typeBytes t, ⟨h + typeBytes t, rfl, by rw [Pushes]; omega⟩, h, rfl, rfl⟩

mutual

/-- **A well-typed expression** pushes the bytes of its type. -/
theorem exprCode_heights (hi : Indexed tables) : ∀ e, WellTyped tables e →
    ExprHeights tables (typeOf e) (exprCode e)
  | .globalStore t v e, ⟨hv, ht, he⟩ => by
    have h : Pushing tables (typeBytes t) _ := ht ▸ (exprCode_heights hi e he).value
    have heff : effect tables (.gstore v) = some (typeBytes t, 0) := by
      simp [effect, hi.globals.getElem? hv]
    refine .ofValue (h.andThen fun k => ?_) (h.andThenOne rfl heff)
    rw [heights_walk rfl StepInstrs.dup_effect, Nat.two_mul, ← Nat.add_assoc, heights_walk rfl heff]
    rfl
  | .localStore t v e, ⟨hv, ht, he⟩ => by
    have h : Pushing tables (typeBytes t) _ := ht ▸ (exprCode_heights hi e he).value
    have heff : effect tables (.store v) = some (typeBytes t, 0) := by
      simp [effect, hi.locals.getElem? hv]
    refine .ofValue (h.andThen fun k => ?_) (h.andThenOne rfl heff)
    rw [heights_walk rfl StepInstrs.dup_effect, Nat.two_mul, ← Nat.add_assoc, heights_walk rfl heff]
    rfl
  | .globalLoad t v, hv =>
    .ofValue (pushing_one rfl (by simp [effect, hi.globals.getElem? hv, typeOf]))
      (pushing_zero.mpr pure_tracks)
  | .localLoad t v, hv =>
    .ofValue (pushing_one rfl (by simp [effect, hi.locals.getElem? hv, typeOf]))
      (pushing_zero.mpr pure_tracks)
  | .prefixExpression t .not e, ⟨ht, _, hbyte, _, he⟩ => by
    obtain rfl := hbyte rfl
    have h := condNot_tracks ((exprCode_heights hi e he).cond ht)
    exact .ofCond h (pushing_zero.mpr (conditionalToVoid_tracks h))
  | .prefixExpression t .complement e, ⟨ht, _, _, _, he⟩ => by
    have h := exprCode_heights hi e he
    rw [ht] at h
    exact .ofValue (Pushing.andThenOne h.value rfl rfl) h.void
  | .prefixExpression t .minus e, ⟨ht, hvoid, _, _, he⟩ => by
    have h := exprCode_heights hi e he
    rw [ht] at h
    have hboth := (@pushing_one tables _ _ (isLeave_irConst t 0) (effect_irConst hvoid 0)).seq h.value
    rw [← Nat.two_mul] at hboth
    refine .ofValue ?_ h.void
    simpa only [bind_assoc] using! hboth.andThenOne (i := .arith t .subtract) rfl rfl
  | .prefixExpression t .predecrement e, h => prefixStep_heights hi rfl h
  | .prefixExpression t .preincrement e, h => prefixStep_heights hi rfl h
  | .postfixExpression t e op, h => postfixStep_heights hi h
  | .binaryExpression t lhs op rhs, ⟨ht, hr, hvoid, hlogical, hwl, hwr⟩ => by
    have hl := exprCode_heights hi lhs hwl
    have hrh := exprCode_heights hi rhs hwr
    rw [hr] at hrh
    have hunused : Pushing tables 0 _ := hl.void.seq hrh.void
    have hoperator : ∀ aop, opFor op = some aop → t = typeOf lhs →
        Pushing tables (typeBytes t) fun acc => (exprCode lhs).value acc >>= fun acc =>
          (exprCode rhs).value acc >>= appendInstructionsM [.arith t aop] := by
      rintro aop haop rfl
      have hboth : Pushing tables _ _ := Pushing.seq hl.value hrh.value
      rw [← Nat.two_mul] at hboth
      simpa only [bind_assoc] using! hboth.andThenOne (i := .arith (typeOf lhs) aop) rfl
        (effect_opFor haop _)
    have hcomparison : CondTracks (heights tables) (condComparison (typeOf lhs) (typeOf rhs) op
        (isZero lhs) (isZero rhs) (exprCode lhs).value (exprCode rhs).value) := by
      rw [hr]
      exact condComparison_heights hvoid op _ _ hl.value hrh.value
    cases op
    case conj =>
      obtain rfl : t = .byte := ht
      have h := condConj_tracks (hl.cond (hlogical rfl)) (hrh.cond (hlogical rfl))
      exact .ofCond h (pushing_zero.mpr (conditionalToVoid_tracks h))
    case disj =>
      obtain rfl : t = .byte := ht
      have h := condDisj_tracks (hl.cond (hlogical rfl)) (hrh.cond (hlogical rfl))
      exact .ofCond h (pushing_zero.mpr (conditionalToVoid_tracks h))
    case gt | ge | lt | le | eq | ne =>
      obtain rfl : t = .byte := ht
      exact .ofCond hcomparison hunused
    all_goals exact .ofValue (hoperator _ rfl ht) hunused
  | .shortLiteral val, _ => literal_heights rfl rfl _
  | .byteLiteral val, _ => literal_heights rfl rfl _
  | .methodCall t v args, ⟨m, hm, hid, hret, hargs, hwell⟩ => by
    have h := argsCode_heights hi args hwell
    rw [hargs] at h
    have hcall := h.andThenOne (i := .call v) (b := typeBytes t) rfl
      (by subst hid hret; simp [effect, hi.method hm])
    exact .ofValue hcall (pushing_discard t hcall)
  | .syscall t op args, ⟨nam, ts, hsys, hargs, hwell⟩ => by
    have h := argsCode_heights hi args hwell
    rw [hargs] at h
    have hcall := h.andThenOne (i := .syscall op) (b := typeBytes t) rfl
      (by simp [effect, syscalls_find hsys])
    exact .ofValue hcall (pushing_discard t hcall)
  | .typeConversion .void e, ⟨_, _, he⟩ =>
    have h := (exprCode_heights hi e he).void
    .ofValue h h
  | .typeConversion .short e, ⟨_, _, he⟩ => by
    have h := exprCode_heights hi e he
    refine .ofValue (Tracks.guarded fun ht => ?_) h.void
    rw [of_decide_eq_true ht] at h
    exact Pushing.andThenOne h.value rfl rfl
  | .typeConversion .byte e, ⟨_, _, he⟩ => by
    have h := exprCode_heights hi e he
    refine .ofValue (Tracks.guarded fun ht => ?_) h.void
    rw [of_decide_eq_true ht] at h
    exact Pushing.andThenOne h.value rfl rfl
  | .booleanConversion e, ⟨ht, he⟩ => by
    have h := exprCode_heights hi e he
    have hvoid : typeOf e ≠ .void := by
      rw [ht]
      decide
    exact .ofValue (pushing_booleanCast hvoid h.value) h.void

theorem argsCode_heights (hi : Indexed tables) : ∀ es, WellTypedArgs tables es →
    Pushing tables (bytesOf (es.map typeOf)) (argsCode es)
  | [], _ => pushing_zero.mpr pure_tracks
  | e :: es, ⟨he, hes⟩ => Pushing.seq (exprCode_heights hi e he).value (argsCode_heights hi es hes)

end

/-! ## Statements -/

/-- A condition of a checked statement. -/
def Condition (tables : BindingState) (e : TExpression) : Prop := typeOf e = .byte ∧ WellTyped tables e

theorem stmtTracking_heights (hi : Indexed tables) :
    StmtTracking (heights tables) 0 (Condition tables) (WellTyped tables) (WellTyped tables) where
  cond e he := (exprCode_heights hi e he.2).cond he.1
  void e he := ExprTracks.void (exprCode_heights hi e he)
  value e he := ⟨_, 0 + typeBytes (typeOf e), rfl, (exprCode_heights hi e he).value,
    .inr ⟨_, rfl, Nat.zero_add _⟩⟩
  exit := .inl rfl
  returns := .inr ⟨_, rfl, rfl⟩

/-- Conditions give a byte. -/
abbrev IsByte (e : TExpression) : Prop := typeOf e = .byte

abbrev Anything (_ : TExpression) : Prop := True

mutual

/-- The type checker turns the conditions of a statement into bytes. -/
theorem buildTStatement_conditions : ∀ (s : Statement) {st st' : BindingState} {t : TStatement},
    buildTStatement s st = .ok (t, st') → StmtParts IsByte Anything Anything t
  | .block stats, st, st', t, h => by
    simp only [buildTStatement, bind_eq_ok, Prod.exists] at h
    obtain ⟨tStats, st1, hstats, h⟩ := h
    split at h
    · exact (nomatch h)
    · obtain ⟨rfl, rfl⟩ := Prod.mk.inj (Except.ok.inj h)
      exact buildTStatements_conditions stats hstats
  | .ifStatement expr thenBody elseBody, st, st', t, h => by
    simp only [buildTStatement, bind_eq_ok, Prod.exists] at h
    obtain ⟨e, he, e', he', tThen, st1, hthen, tElse, st2, helse, h⟩ := h
    obtain ⟨rfl, rfl⟩ := Prod.mk.inj (Except.ok.inj h)
    obtain ⟨hbyte, -⟩ := booleanConvertCheck_typed (buildTExpression_wellTyped expr he) he'
    exact ⟨hbyte, buildTStatement_conditions thenBody hthen, buildTElse_conditions elseBody helse⟩
  | .whileStatement cond body, st, st', t, h => by
    simp only [buildTStatement, bind_eq_ok, Prod.exists] at h
    obtain ⟨c, hc, c', hc', tBody, st1, hbody, h⟩ := h
    obtain ⟨rfl, rfl⟩ := Prod.mk.inj (Except.ok.inj h)
    obtain ⟨hbyte, -⟩ := booleanConvertCheck_typed (buildTExpression_wellTyped cond hc) hc'
    exact ⟨hbyte, buildTStatement_conditions body hbody⟩
  | .forStatement initializer cond iter body, st, st', t, h => by
    simp only [buildTStatement, bind_eq_ok, Prod.exists] at h
    obtain ⟨i, hi, c, hc, c', hc', it, hit, tBody, st1, hbody, h⟩ := h
    obtain ⟨rfl, rfl⟩ := Prod.mk.inj (Except.ok.inj h)
    obtain ⟨hbyte, -⟩ := booleanConvertCheck_typed (buildTExpression_wellTyped cond hc) hc'
    exact ⟨trivial, hbyte, trivial, buildTStatement_conditions body hbody⟩
  | .variableDeclarationStatement typ nam initializer, st, st', t, h => by
    simp only [buildTStatement] at h
    split at h
    · exact (nomatch h)
    obtain ⟨⟨varId, st1⟩, hadd, h⟩ := bind_eq_ok.mp h
    cases initializer with
    | none =>
      obtain ⟨rfl, rfl⟩ := Prod.mk.inj (Except.ok.inj h)
      exact trivial
    | some expr =>
      simp only [bind_eq_ok] at h
      obtain ⟨e, he, e', he', h⟩ := h
      obtain ⟨rfl, rfl⟩ := Prod.mk.inj (Except.ok.inj h)
      exact trivial
  | .expressionStatement expr, st, st', t, h => by
    simp only [buildTStatement, bind_eq_ok] at h
    obtain ⟨e, he, e', he', h⟩ := h
    obtain ⟨rfl, rfl⟩ := Prod.mk.inj (Except.ok.inj h)
    exact trivial
  | .returnValueStatement expr, st, st', t, h => by
    simp only [buildTStatement, bind_eq_ok] at h
    obtain ⟨e, he, e', he', u, -, h⟩ := h
    obtain ⟨rfl, rfl⟩ := Prod.mk.inj (Except.ok.inj h)
    exact trivial
  | .returnStatement, st, st', t, h | .breakStatement, st, st', t, h
  | .continueStatement, st, st', t, h => by
    obtain ⟨u, -, h⟩ := bind_eq_ok.mp h
    obtain ⟨rfl, rfl⟩ := Prod.mk.inj (Except.ok.inj h)
    exact trivial
  | .exitStatement, st, st', t, h => by
    obtain ⟨rfl, rfl⟩ := Prod.mk.inj (Except.ok.inj h)
    exact trivial

theorem buildTStatements_conditions : ∀ (ss : List Statement) {st st' : BindingState}
    {ts : List TStatement}, buildTStatements ss st = .ok (ts, st') →
      StmtsParts IsByte Anything Anything ts
  | [], st, st', ts, h => by
    obtain ⟨rfl, rfl⟩ := Prod.mk.inj (Except.ok.inj h)
    exact trivial
  | s :: ss, st, st', ts, h => by
    simp only [buildTStatements, bind_eq_ok, Prod.exists] at h
    obtain ⟨t, st1, hs, ts', st2, hss, h⟩ := h
    obtain ⟨rfl, rfl⟩ := Prod.mk.inj (Except.ok.inj h)
    exact ⟨buildTStatement_conditions s hs, buildTStatements_conditions ss hss⟩

theorem buildTElse_conditions : ∀ (o : Option Statement) {st st' : BindingState}
    {t : Option TStatement}, buildTElse o st = .ok (t, st') → ElseParts IsByte Anything Anything t
  | none, st, st', t, h => by
    obtain ⟨rfl, rfl⟩ := Prod.mk.inj (Except.ok.inj h)
    exact trivial
  | some s, st, st', t, h => by
    simp only [buildTElse, bind_eq_ok, Prod.exists] at h
    obtain ⟨t', st1, hs, h⟩ := h
    obtain ⟨rfl, rfl⟩ := Prod.mk.inj (Except.ok.inj h)
    exact buildTStatement_conditions s hs

end

section

variable {P C V W : TExpression → Prop} {f : TExpression → TExpression}

mutual

/-- A function applied to the expressions of a checked statement, of which the conditions are bytes. -/
theorem StmtParts.exMap (hC : ∀ e, P e → IsByte e → C (f e)) (hV : ∀ e, P e → V (f e))
    (hW : ∀ e, P e → W (f e)) : ∀ {loop : Bool} (s : TStatement), StmtChecked P loop s →
      StmtParts IsByte Anything Anything s → StmtParts C V W (exMapStatement f s)
  | _, .block _ stats, hs, hb => StmtsParts.exMap hC hV hW stats hs hb
  | _, .ifStatement _ thenBody elseBody, ⟨he, ht, hf⟩, ⟨hb, hbt, hbf⟩ =>
    ⟨hC _ he hb, StmtParts.exMap hC hV hW thenBody ht hbt, ElseParts.exMap hC hV hW elseBody hf hbf⟩
  | _, .whileStatement _ body, ⟨he, hs⟩, ⟨hb, hbs⟩ =>
    ⟨hC _ he hb, StmtParts.exMap hC hV hW body hs hbs⟩
  | _, .forStatement _ _ _ body, ⟨hi, he, ht, hs⟩, ⟨_, hb, _, hbs⟩ =>
    ⟨hV _ hi, hC _ he hb, hV _ ht, StmtParts.exMap hC hV hW body hs hbs⟩
  | _, .expressionStatement _, he, _ => hV _ he
  | _, .returnValueStatement _, he, _ => hW _ he
  | _, .returnStatement, _, _ => trivial
  | _, .exitStatement, _, _ => trivial
  | _, .breakStatement, _, _ => trivial
  | _, .continueStatement, _, _ => trivial
  | _, .empty, _, _ => trivial

theorem StmtsParts.exMap (hC : ∀ e, P e → IsByte e → C (f e)) (hV : ∀ e, P e → V (f e))
    (hW : ∀ e, P e → W (f e)) : ∀ {loop : Bool} (ss : List TStatement), StmtsChecked P loop ss →
      StmtsParts IsByte Anything Anything ss → StmtsParts C V W (exMapStatements f ss)
  | _, [], _, _ => trivial
  | _, s :: ss, ⟨hs, hss⟩, ⟨hb, hbs⟩ =>
    ⟨StmtParts.exMap hC hV hW s hs hb, StmtsParts.exMap hC hV hW ss hss hbs⟩

theorem ElseParts.exMap (hC : ∀ e, P e → IsByte e → C (f e)) (hV : ∀ e, P e → V (f e))
    (hW : ∀ e, P e → W (f e)) : ∀ {loop : Bool} (o : Option TStatement), ElseChecked P loop o →
      ElseParts IsByte Anything Anything o → ElseParts C V W (exMapElse f o)
  | _, none, _, _ => trivial
  | _, some s, hs, hb => StmtParts.exMap hC hV hW s hs hb

end

end

/-! ## Methods -/

/-- The conditions of every method are bytes. -/
def TProgram.ByteConditions (p : TProgram) : Prop :=
  ∀ m ∈ p.methods, StmtsParts IsByte Anything Anything m.body

theorem buildTMethod_conditions {p p' : TProgram} {dec : Declaration} (hp : p.ByteConditions)
    (h : buildTMethod p dec = .ok p') : p'.ByteConditions := by
  cases dec with
  | globalVariableDeclaration typ nam =>
    obtain rfl := Except.ok.inj h
    exact hp
  | methodDeclaration typ nam args body =>
    simp only [buildTMethod, bind_eq_ok, Prod.exists, maybeToError_ok] at h
    obtain ⟨u, -, methodId, -, m, hm, tStats, st, hbody, h⟩ := h
    split at h
    case h_2 => cases h
    case h_1 scope _ =>
    obtain rfl := Except.ok.inj h
    intro m' hm'
    rcases List.mem_or_eq_of_mem_set hm' with hold | rfl
    · exact hp m' hold
    · exact buildTStatements_conditions body hbody

theorem buildTProgram_conditions {decs : List Declaration} {p : TProgram}
    (h : buildTProgram decs = .ok p) : p.ByteConditions := by
  obtain ⟨p0, hscan, h⟩ := bind_eq_ok.mp h
  have hempty : TProgram.Skeleton ⟨[], [], [], []⟩ := ⟨fun _ _ hm => (nomatch hm), fun _ hm => (nomatch hm)⟩
  have hp := foldlM_keeps (fun _ _ _ => addToProgram_skeleton) decs hempty hscan
  refine foldlM_keeps (fun _ _ _ => buildTMethod_conditions) decs (fun m hm => ?_) h
  rw [hp.bodies m hm]
  exact trivial

/-- The tables of a folded program. -/
theorem Indexed.folded {p : TProgram} {m : TMethod} (hp : p.Checked) (hv : p.VarsNumbered)
    (hm : m ∈ p.methods) (body : List TStatement) :
    Indexed ((constantEvalProgram p).tables { m with body := body }) := by
  refine ⟨hv.locals m hm, hv.globals, fun i m' hm' => ?_⟩
  change (p.methods.map _)[i]? = some m' at hm'
  rw [List.getElem?_map, Option.map_eq_some_iff] at hm'
  obtain ⟨m0, hm0, rfl⟩ := hm'
  exact hp.numbered i m0 hm0

theorem extends_folded (p : TProgram) (m : TMethod) (body : List TStatement) :
    Extends (p.tables m) ((constantEvalProgram p).tables { m with body := body }) where
  globals := List.Subset.refl _
  locals := List.Subset.refl _
  methods _ hm' := ⟨_, List.mem_map_of_mem hm', rfl, rfl, rfl⟩

/-- The expressions of a folded method are as the heights ask. -/
theorem folded_parts {decs : List Declaration} {p : TProgram} (hp : buildTProgram decs = .ok p)
    {m : TMethod} (hm : m ∈ (constantEvalProgram p).methods) :
    Indexed ((constantEvalProgram p).tables m) ∧
      StmtsParts (Condition ((constantEvalProgram p).tables m))
        (WellTyped ((constantEvalProgram p).tables m)) (WellTyped ((constantEvalProgram p).tables m))
        m.body := by
  obtain ⟨m0, hm0, rfl⟩ := List.mem_map.mp hm
  have hchecked := buildTProgram_checked hp
  refine ⟨.folded hchecked (buildTProgram_numbered hp) hm0 _, ?_⟩
  have hlarger := extends_folded p m0 (exMapStatements constantEval m0.body)
  have hfold := fun e (he : WellTyped (p.tables m0) e) =>
    WellTyped.extends hlarger _ (constantEval_wellTyped e he).2
  exact StmtsParts.exMap (fun e he hb => ⟨(constantEval_wellTyped e he).1.trans hb, hfold e he⟩)
    hfold hfold m0.body (hchecked.bodies m0 hm0) (buildTProgram_conditions hp m0 hm0)

/-! ## Paths -/

/-- A conditional edge looks at a byte. -/
def looks (es : List (IREdge × Nat)) : Bool := es.any fun e => e.1 ≠ .default

/-- A path from the entry of `g` brings the height `h` to a place. -/
inductive Arrives (tables : BindingState) (g : IRGraph IRInstruction) : Pos → Nat → Prop
  | entry : Arrives tables g (0, 0) 0
  | instr {n k h h' : Nat} {b : IRNode IRInstruction} {i : IRInstruction} :
      Arrives tables g (n, k) h → g.node n = some b → b.instrs[k]? = some i →
        (heights tables).step i h = some h' → Arrives tables g (n, k + 1) h'
  | edge {n h h' : Nat} {b : IRNode IRInstruction} {e : IREdge × Nat} :
      Arrives tables g (n, b.instrs.length) h → g.node n = some b → e ∈ b.edges →
        (if looks b.edges then (heights tables).test h else some h) = some h' →
          Arrives tables g (e.2, 0) h'

/-- A balanced graph: a place has one height on every path, no instruction and no conditional edge
    pops more than there is, and a method returns with the bytes of its result. -/
structure Balanced (tables : BindingState) (g : IRGraph IRInstruction) : Prop where
  unique : ∀ p h h', Arrives tables g p h → Arrives tables g p h' → h = h'
  enough : ∀ n k h b i, Arrives tables g (n, k) h → g.node n = some b → b.instrs[k]? = some i →
    ∃ pops pushes, effect tables i = some (pops, pushes) ∧ pops ≤ h
  looked : ∀ n h b, Arrives tables g (n, b.instrs.length) h → g.node n = some b →
    looks b.edges = true → 1 ≤ h
  returned : ∀ n k h b t, Arrives tables g (n, k) h → g.node n = some b →
    b.instrs[k]? = some (.return t) → h = typeBytes t

/-- Labels that fit all blocks, of which those that end without a leave have no edges. -/
structure HeightLabels (tables : BindingState) (g : IRGraph IRInstruction) (H : Nat → Nat) : Prop where
  entry : H 0 = 0
  fits : ∀ n b, g.node n = some b → (heights tables).Fits H b (H n) ∨
    b.edges = [] ∧ ∃ h, (heights tables).walk b.instrs (H n) = some h

namespace HeightLabels

variable {g : IRGraph IRInstruction} {H : Nat → Nat}

/-- **The height along a path** is the one that the labels give. -/
theorem labelAt (hH : HeightLabels tables g H) (hg : g.WellFormed) {p : Pos}
    (hp : Arrives tables g p h) : (heights tables).LabelAt g H h p := by
  induction hp with
  | entry =>
    obtain ⟨b, hb⟩ := hg.entry
    exact ⟨b, hb, congrArg some hH.entry⟩
  | @instr n k h h' b i _ hb hi hstep ih =>
    obtain ⟨b', hb', hwalk⟩ := ih
    obtain rfl := Option.some.inj (hb.symm.trans hb')
    refine ⟨b, hb, ?_⟩
    show (heights tables).walk (b.instrs.take (k + 1)) (H n) = some h'
    rw [List.take_add_one, hi, Tracking.walk_append, hwalk]
    show ((heights tables).step i h).bind _ = some h'
    rw [hstep]
    rfl
  | @edge n h h' b e _ hb he hlook ih =>
    obtain ⟨b', hb', hwalk⟩ := ih
    obtain rfl := Option.some.inj (hb.symm.trans hb')
    rw [List.take_length] at hwalk
    obtain ⟨b', hb'⟩ := hg.target n b hb e he
    refine ⟨b', hb', congrArg some ?_⟩
    show H e.2 = h'
    rcases hH.fits n b hb with hfits | ⟨hnone, -⟩
    · cases hfits with
      | ends heq _ _ =>
        rw [heq] at he
        cases he
      | @goesOn l' hwalk' hleads =>
        obtain rfl := Option.some.inj (hwalk.symm.trans hwalk')
        generalize b.edges = es at he hleads hlook
        cases hleads with
        | jump =>
          obtain rfl := List.mem_singleton.mp he
          exact Option.some.inj hlook
        | @branch c j d l htest heq =>
          have hd : H d = h' := Option.some.inj (htest.symm.trans hlook)
          rcases List.mem_cons.mp he with rfl | he
          · exact heq.trans hd
          · obtain rfl := List.mem_singleton.mp he
            exact hd
    · rw [hnone] at he
      cases he

theorem step_of_walk {is : List IRInstruction} {k l l' : Nat}
    (hall : (heights tables).walk is l = some l') (hk : is[k]? = some i)
    (htake : (heights tables).walk (is.take k) l = some h) :
    ∃ h', (heights tables).step i h = some h' := by
  obtain ⟨hlt, hget⟩ := List.getElem?_eq_some_iff.mp hk
  rw [← List.take_append_drop k is, Tracking.walk_append, htake, Option.bind_some,
    List.drop_eq_getElem_cons hlt, hget, Tracking.walk] at hall
  obtain ⟨h', hstep, -⟩ := Option.bind_eq_some_iff.mp hall
  exact ⟨h', hstep⟩

/-- An instruction on a path has what it pops, or it leaves as it should. -/
theorem instr_cases (hH : HeightLabels tables g H) (hg : g.WellFormed) {n k : Nat}
    {b : IRNode IRInstruction} (hp : Arrives tables g (n, k) h) (hb : g.node n = some b)
    (hi : b.instrs[k]? = some i) :
    (∃ h', (heights tables).step i h = some h') ∨ (heights tables).leaves i h := by
  obtain ⟨b', hb', hwalk⟩ := hH.labelAt hg hp
  obtain rfl := Option.some.inj (hb.symm.trans hb')
  rcases hH.fits n b hb with hfits | ⟨-, l', hall⟩
  · cases hfits with
    | goesOn hall _ => exact .inl (step_of_walk hall hi hwalk)
    | @ends is j l' heq hall hleaves =>
      subst heq
      by_cases hlt : k < is.length
      · refine .inl (step_of_walk (k := k) hall ?_ ?_)
        · rwa [List.getElem?_append_left hlt] at hi
        · rwa [List.take_append_of_le_length hlt.le] at hwalk
      · obtain ⟨hk, -⟩ := List.getElem?_eq_some_iff.mp hi
        rw [List.length_append, List.length_singleton] at hk
        obtain rfl : k = is.length := by omega
        rw [List.take_left] at hwalk
        rw [List.getElem?_concat_length] at hi
        obtain rfl := Option.some.inj hi
        obtain rfl := Option.some.inj (hall.symm.trans hwalk)
        exact .inr hleaves
  · exact .inl (step_of_walk hall hi hwalk)

theorem balanced (hH : HeightLabels tables g H) (hg : g.WellFormed) : Balanced tables g where
  unique p h h' hp hp' := by
    obtain ⟨b, hb, hwalk⟩ := hH.labelAt hg hp
    obtain ⟨b', hb', hwalk'⟩ := hH.labelAt hg hp'
    obtain rfl := Option.some.inj (hb.symm.trans hb')
    exact Option.some.inj (hwalk.symm.trans hwalk')
  enough n k h b i hp hb hi := by
    rcases hH.instr_cases hg hp hb hi with ⟨h', hstep⟩ | rfl | ⟨t, rfl, rfl⟩
    · obtain ⟨-, pops, pushes, heff, hle, -⟩ := heights_step_some hstep
      exact ⟨pops, pushes, heff, hle⟩
    · exact ⟨0, 0, rfl, Nat.zero_le _⟩
    · exact ⟨_, 0, rfl, Nat.le_refl _⟩
  looked n h b hp hb hlooks := by
    obtain ⟨b', hb', hwalk⟩ := hH.labelAt hg hp
    obtain rfl := Option.some.inj (hb.symm.trans hb')
    rw [List.take_length] at hwalk
    rcases hH.fits n b hb with hfits | ⟨hnone, -⟩
    · cases hfits with
      | ends heq _ _ =>
        rw [heq] at hlooks
        cases hlooks
      | goesOn hwalk' hleads =>
        obtain rfl := Option.some.inj (hwalk.symm.trans hwalk')
        generalize b.edges = es at hleads hlooks
        cases hleads with
        | jump => cases hlooks
        | branch htest _ =>
          by_contra hlt
          rw [show (heights tables).test h = none from if_neg hlt] at htest
          cases htest
    · rw [hnone] at hlooks
      cases hlooks
  returned n k h b t hp hb hi := by
    rcases hH.instr_cases hg hp hb hi with ⟨h', hstep⟩ | hexit | ⟨u, hu, hh⟩
    · exact (nomatch (heights_step_some hstep).1)
    · cases hexit
    · cases hu
      exact hh

end HeightLabels

/-! ## The graph of a method -/

theorem closeBlock_cases (t : Typ) (b : IRNode IRInstruction) : closeBlock t b = b ∨
    b.edges = [] ∧ closeBlock t b = ⟨b.instrs ++ [.return .void], []⟩ := by
  unfold closeBlock
  split
  · next hc => exact .inr ⟨hc.2.1, by rw [hc.2.1]⟩
  · exact .inl rfl

/-- Nothing walks over a return. -/
theorem walk_return (is : List IRInstruction) (t : Typ) (l : Nat) :
    (heights tables).walk (is ++ [.return t]) l = none := by
  rw [Tracking.walk_append]
  cases (heights tables).walk is l <;> rfl

/-- The labels of the built graph are labels of the graph of the method. -/
theorem heightLabels_of_built {G g : IRGraph IRInstruction} {H : Nat → Nat} {t : Typ} {last : Nat}
    {is : List IRInstruction} (hcovers : Covers (fun b b' => b' = closeBlock t b) G g)
    (hentry : H 0 = 0) (hlast : G.node last = some ⟨is, []⟩)
    (hat : (heights tables).walk is (H last) = some 0)
    (hfits : ∀ n b, G.node n = some b → n ≠ last → (heights tables).Fits H b (H n)) :
    HeightLabels tables g H := by
  refine ⟨hentry, fun n b' hb' => ?_⟩
  obtain ⟨b, hb, rfl, -⟩ := hcovers.node n b' hb'
  by_cases hn : n = last
  · subst hn
    obtain rfl := Option.some.inj (hlast.symm.trans hb)
    rcases closeBlock_cases t ⟨is, []⟩ with hclose | ⟨-, hclose⟩
    · rw [hclose]
      exact .inr ⟨rfl, 0, hat⟩
    · rw [hclose]
      exact .inl (.ends rfl hat (.inr ⟨.void, rfl, rfl⟩))
  · have hb := hfits n b hb hn
    left
    cases hb with
    | goesOn hwalk hleads =>
      have hne : b.edges ≠ [] := by
        intro hnil
        rw [hnil] at hleads
        cases hleads
      rw [closeBlock_of_edges hne]
      exact .goesOn hwalk hleads
    | @ends is i l' heq hwalk hleaves =>
      have hleave : isLeave i = true := by
        rcases hleaves with rfl | ⟨t, rfl, -⟩
        · rfl
        · rfl
      subst heq
      rw [closeBlock_of_return (noReturnBlock_concat hleave)]
      exact .ends rfl hwalk hleaves

/-- A place of the built graph with the height 0 has no other in the graph of the method. -/
theorem height_zero {G g : IRGraph IRInstruction} {H : Nat → Nat} {t : Typ} {p : Pos}
    (hcovers : Covers (fun b b' => b' = closeBlock t b) G g) (hH : HeightLabels tables g H)
    (hp : (heights tables).LabelAt G H 0 p) (h : Nat) (harr : Arrives tables g p h) : h = 0 := by
  obtain ⟨b', hb', hwalk'⟩ := hH.labelAt hcovers.wf harr
  obtain ⟨b, hb, rfl, -⟩ := hcovers.node p.1 b' hb'
  obtain ⟨b1, hb1, hwalk⟩ := hp
  obtain rfl := Option.some.inj (hb.symm.trans hb1)
  rcases closeBlock_cases t b with hclose | ⟨-, hclose⟩
  · rw [hclose] at hwalk'
    exact Option.some.inj (hwalk'.symm.trans hwalk)
  · rw [hclose] at hwalk'
    by_cases hle : p.2 ≤ b.instrs.length
    · rw [List.take_append_of_le_length hle] at hwalk'
      exact Option.some.inj (hwalk'.symm.trans hwalk)
    · -- beyond the block there is only the return
      rw [List.take_of_length_le (by simp; omega), walk_return] at hwalk'
      cases hwalk'

/-- **The graph of every method is balanced**: a place has one height on every path, nothing is popped
    that was not pushed, a return of a type finds the bytes of that type; and the height is 0 wherever
    a statement starts or ends and where loops start again. -/
theorem buildIRMethod_balanced (decs : List Declaration) (p : TProgram) (m : TMethod) (irm : IRMethod)
    (hp : buildTProgram decs = .ok p) (hm : m ∈ (constantEvalProgram p).methods)
    (hirm : buildIRMethod m = .ok irm) :
    Balanced ((constantEvalProgram p).tables m) irm.graph ∧
      ∃ st last, buildBody m.body emptyState = .ok ((), st) ∧
        stmtsMarked st.blockGraph
          (fun q => ∀ h, Arrives ((constantEvalProgram p).tables m) irm.graph q h → h = 0)
          m.body ⟨none, none⟩ (0, 0) last := by
  obtain ⟨st, hbody, hwf, hcovers, -, -⟩ := buildIRMethod_ok hirm
  obtain ⟨hindexed, hparts⟩ := folded_parts hp hm
  obtain ⟨acc, st1, -, -, H, hentry, hmarked, hlast, hat, hfits⟩ :=
    buildBody_labelled (stmtTracking_heights hindexed) hparts hbody
  have hH := heightLabels_of_built hcovers hentry hlast hat hfits
  exact ⟨hH.balanced hcovers.wf, st, acc.pos, hbody,
    stmtsMarked_mono (fun q hq => height_zero hcovers hH hq) m.body hmarked⟩

/-- `byte main(short x) { return !x; }` -/
def negated : List Declaration :=
  [.methodDeclaration .byte "main" [(.short, "x")]
    [.returnValueStatement (.prefixExpression .not (.variableAccess "x"))]]

def negatedMain : TMethod :=
  ⟨0, .byte, [.short], [⟨0, .short⟩], [("x", 0)],
    [.returnValueStatement (.prefixExpression .byte .not (.booleanConversion (.localLoad .short 0)))]⟩

theorem buildIRMethod_balanced_negated : ∃ p irm, buildTProgram negated = .ok p ∧
    negatedMain ∈ (constantEvalProgram p).methods ∧ buildIRMethod negatedMain = .ok irm ∧
      Balanced ((constantEvalProgram p).tables negatedMain) irm.graph ∧
      ∃ st last, buildBody negatedMain.body emptyState = .ok ((), st) ∧
        stmtsMarked st.blockGraph
          (fun q => ∀ h, Arrives ((constantEvalProgram p).tables negatedMain) irm.graph q h → h = 0)
          negatedMain.body ⟨none, none⟩ (0, 0) last := by
  have hp : buildTProgram negated = .ok ⟨[negatedMain], [], [("main", 0)], []⟩ := rfl
  obtain ⟨irm, hirm⟩ : ∃ irm, buildIRMethod negatedMain = .ok irm := ⟨_, rfl⟩
  exact ⟨_, irm, hp, List.mem_cons_self, hirm,
    buildIRMethod_balanced negated _ negatedMain irm hp List.mem_cons_self hirm⟩

end KeyboardFirmware.Compiler
