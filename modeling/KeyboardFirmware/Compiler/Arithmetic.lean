/-
  Arithmetic expressions.

  `Arithmetic` are the arithmetic, bitwise and shift expressions over constants and the variables of a
  method, as the type checker makes them (`buildTExpression_arithmetic`) and the folder leaves them
  (`constantEval_arithmetic`).  Their code is straight: a list of instructions for the block that the
  generator stands in (`buildIRExpression_arithmetic`).
-/
import KeyboardFirmware.Compiler.Typing
import KeyboardFirmware.Compiler.Output

namespace KeyboardFirmware.Compiler

/-- The bytes of a type on the stack. -/
def typeBytes : Typ → Nat
  | .byte => 1
  | .short => 2
  | .void => 0

/-- The bytes of values of some types. -/
def bytesOf (ts : List Typ) : Nat := (ts.map typeBytes).sum

theorem typeSize_ok {t : Typ} {n : Word8} (h : typeSize t = .ok n) :
    n = BitVec.ofNat 8 (typeBytes t) := by
  cases t with
  | byte | short => exact (Except.ok.inj h).symm
  | void => exact (nomatch h)

/-- `<<` and `>>`. -/
def isShift : BinaryOp → Bool
  | .lshift | .rshift => true
  | _ => false

/-! ## Expressions -/

/-- Arithmetic, bitwise and shift expressions over constants and the variables of a method, with the
    types that the checker gives. -/
inductive Arithmetic (lVars : VarAllocation) : Typ → TExpression → Prop
  | byteLiteral (v : VByte) : Arithmetic lVars .byte (.byteLiteral v)
  | shortLiteral (v : VShort) : Arithmetic lVars .short (.shortLiteral v)
  | localLoad {t : Typ} {i : VariableID} {slot : Nat} :
      lVars.lookup i = some (slot, t) → t ≠ .void → Arithmetic lVars t (.localLoad t i)
  | complement {t : Typ} {e : TExpression} :
      Arithmetic lVars t e → Arithmetic lVars t (.prefixExpression t .complement e)
  | minus {t : Typ} {e : TExpression} :
      Arithmetic lVars t e → Arithmetic lVars t (.prefixExpression t .minus e)
  | binary {t : Typ} {l r : TExpression} {op : BinaryOp} {aop : ArithOp} : opFor op = some aop →
      Arithmetic lVars t l → Arithmetic lVars t r → Arithmetic lVars t (.binaryExpression t l op r)
  | toShort {e : TExpression} :
      Arithmetic lVars .byte e → Arithmetic lVars .short (.typeConversion .short e)
  | toByte {e : TExpression} :
      Arithmetic lVars .short e → Arithmetic lVars .byte (.typeConversion .byte e)

/-- The instructions of an arithmetic expression. -/
def valueInstrs : TExpression → List IRInstruction
  | .byteLiteral v => [.bconst v]
  | .shortLiteral v => [.sconst v]
  | .localLoad _ i => [.load i]
  | .prefixExpression t .complement e => valueInstrs e ++ [.arith t .complement]
  | .prefixExpression t .minus e => irConst t 0 :: valueInstrs e ++ [.arith t .subtract]
  | .binaryExpression t l op r =>
    valueInstrs l ++ valueInstrs r ++ ((opFor op).map fun aop => IRInstruction.arith t aop).toList
  | .typeConversion .short e => valueInstrs e ++ [.b2s]
  | .typeConversion .byte e => valueInstrs e ++ [.s2b]
  | _ => []

/-- How many shifts have the type short. -/
def shortShifts : TExpression → Nat
  | .prefixExpression _ _ e => shortShifts e
  | .binaryExpression t l op r =>
    shortShifts l + shortShifts r + if t = .short ∧ isShift op then 1 else 0
  | .typeConversion _ e => shortShifts e
  | _ => 0

/-- The bytes of stack that the code of an arithmetic expression takes. -/
def stackNeed : TExpression → Nat
  | .byteLiteral _ => 1
  | .shortLiteral _ => 2
  | .localLoad t _ => typeBytes t
  | .prefixExpression t .minus e => typeBytes t + stackNeed e
  | .prefixExpression _ _ e => stackNeed e
  | .binaryExpression t l _ r => max (stackNeed l) (typeBytes t + shortShifts l + stackNeed r)
  | .typeConversion t e => max (stackNeed e) (typeBytes t + shortShifts e)
  | _ => 0

variable {gVars lVars : VarAllocation} {t : Typ} {e : TExpression}

theorem Arithmetic.typeOf (h : Arithmetic lVars t e) : typeOf e = t := by
  cases h <;> rfl

theorem Arithmetic.not_void (h : Arithmetic lVars t e) : t ≠ .void := by
  induction h with
  | byteLiteral | shortLiteral | toShort | toByte => exact fun h => nomatch h
  | localLoad _ ht => exact ht
  | complement _ ih => exact ih
  | minus _ ih => exact ih
  | binary _ _ _ ih => exact ih

theorem typeBytes_pos (ht : t ≠ .void) : 1 ≤ typeBytes t := by
  cases t with
  | void => exact absurd rfl ht
  | byte => exact Nat.le_refl 1
  | short => exact Nat.le_succ 1

/-- What an expression leaves has room. -/
theorem Arithmetic.le_stackNeed (h : Arithmetic lVars t e) :
    typeBytes t + shortShifts e ≤ stackNeed e := by
  induction h with
  | byteLiteral | shortLiteral | localLoad => exact Nat.le_refl _
  | complement _ ih => exact ih
  | minus _ ih =>
    simp only [shortShifts, stackNeed]
    omega
  | binary _ hl _ ihl ihr =>
    have hpos := typeBytes_pos hl.not_void
    simp only [shortShifts, stackNeed]
    split <;> omega
  | toShort | toByte => exact Nat.le_max_right _ _

theorem appendInstructionsM_comp (is js : List IRInstruction) (acc : BlockAccum) :
    appendInstructionsM js (appendInstructions is acc) = appendInstructionsM (is ++ js) acc := by
  simp [appendInstructionsM, appendInstructions]

theorem appendInstructionsM_bind (is : List IRInstruction) (c : Code) (acc : BlockAccum) :
    (appendInstructionsM is acc >>= c) = c (appendInstructions is acc) := pure_bind _ _

theorem appendInstructionsM_append (is js : List IRInstruction) (acc : BlockAccum) :
    (appendInstructionsM is acc >>= appendInstructionsM js) = appendInstructionsM (is ++ js) acc := by
  rw [appendInstructionsM_bind, appendInstructionsM_comp]

/-- The code generator emits these instructions, in the block it stands in. -/
theorem buildIRExpression_arithmetic (h : Arithmetic lVars t e) (acc : BlockAccum) :
    buildIRExpression .value e acc = appendInstructionsM (valueInstrs e) acc := by
  induction h generalizing acc with
  | byteLiteral | shortLiteral | localLoad => rfl
  | @complement t e _ ih =>
    show buildIRExpression .value e acc >>= appendInstructionsM [.arith t .complement] = _
    rw [ih, appendInstructionsM_append]
    rfl
  | @minus t e _ ih =>
    show (appendInstructionsM [irConst t 0] acc >>= fun acc =>
      buildIRExpression .value e acc >>= appendInstructionsM [.arith t .subtract]) = _
    rw [appendInstructionsM_bind, ih, appendInstructionsM_append, appendInstructionsM_comp]
    rfl
  | @binary t l r op aop hop _ _ ihl ihr =>
    have hcode : buildIRExpression .value (.binaryExpression t l op r) acc =
        (buildIRExpression .value l acc >>= fun acc =>
          buildIRExpression .value r acc >>= appendInstructionsM [.arith t aop]) := by
      cases op <;> cases hop <;> rfl
    rw [hcode, ihl, appendInstructionsM_bind, ihr, appendInstructionsM_append,
      appendInstructionsM_comp]
    simp only [valueInstrs, hop, Option.map_some, Option.toList_some, List.append_assoc]
  | @toShort e h ih =>
    have hcode : buildIRExpression .value (.typeConversion .short e) acc =
        (guardError (.internalError "Unexpected value context") (Compiler.typeOf e = .byte) >>= fun _ =>
          buildIRExpression .value e acc >>= appendInstructionsM [.b2s] :
            ThrowsBlockingState BlockAccum) := rfl
    rw [hcode, ih, h.typeOf, appendInstructionsM_append]
    rfl
  | @toByte e h ih =>
    have hcode : buildIRExpression .value (.typeConversion .byte e) acc =
        (guardError (.internalError "Unexpected value context") (Compiler.typeOf e = .short) >>= fun _ =>
          buildIRExpression .value e acc >>= appendInstructionsM [.s2b] :
            ThrowsBlockingState BlockAccum) := rfl
    rw [hcode, ih, h.typeOf, appendInstructionsM_append]
    rfl

/-! ## What the compiler accepts -/

/-- Arithmetic over constants, local variables and casts in the source. -/
def ArithmeticSource (st : BindingState) : Expression → Prop
  | .shortLiteral _ => True
  | .byteLiteral _ => True
  | .variableAccess nam => ∃ v, lookupLocalVar st nam = .ok v ∧ v.typ ≠ .void
  | .prefixExpression .minus e => ArithmeticSource st e
  | .prefixExpression .complement e => ArithmeticSource st e
  | .binaryExpression l op r =>
    (opFor op).isSome ∧ ArithmeticSource st l ∧ ArithmeticSource st r
  | .typeCast t e => t ≠ .void ∧ ArithmeticSource st e
  | _ => False

/-- Each variable of the method has a slot of its type. -/
def HasSlots (st : BindingState) (lVars : VarAllocation) : Prop :=
  ∀ nam v, lookupLocalVar st nam = .ok v → ∃ slot, lVars.lookup v.id = some (slot, v.typ)

/-- Every variable has the slot behind the ones before it, in a byte; no other number has one. -/
theorem allocateVarSlots_lookup {vars : List TVariable} :
    ∀ {lVars₀ lVars : VarAllocation} {n₀ n : Word8},
      vars.foldlM (fun (m : VarAllocation × Word8) v => do
        let size ← typeSize v.typ
        .ok ((v.id, m.2.toNat, v.typ) :: m.1, m.2 + size)) (lVars₀, n₀) = .ok (lVars, n) →
      (vars.map (·.id)).Nodup →
      (∀ (i : Nat) v, vars[i]? = some v → lVars.lookup v.id =
        some ((n₀.toNat + bytesOf ((vars.map (·.typ)).take i)) % 256, v.typ)) ∧
        ∀ i, i ∉ vars.map (·.id) → lVars.lookup i = lVars₀.lookup i := by
  induction vars with
  | nil =>
    intro lVars₀ lVars n₀ n h _
    cases h
    exact ⟨fun _ _ hv => (nomatch hv), fun _ _ => rfl⟩
  | cons v vars ih =>
    intro lVars₀ lVars n₀ n h hnodup
    simp only [List.foldlM_cons, bind_eq_ok] at h
    obtain ⟨m, ⟨size, hsize, hm⟩, hrest⟩ := h
    obtain rfl := Except.ok.inj hm
    rw [List.map_cons, List.nodup_cons] at hnodup
    obtain ⟨hslots, hother⟩ := ih hrest hnodup.2
    refine ⟨fun i w hw => ?_, fun i hi => ?_⟩
    · cases i with
      | zero =>
        obtain rfl := Option.some.inj hw
        rw [hother _ hnodup.1, List.lookup_cons_self]
        simp [bytesOf, Nat.mod_eq_of_lt n₀.isLt]
      | succ i =>
        have hslot := hslots i w hw
        rw [hslot, typeSize_ok hsize, BitVec.toNat_add, BitVec.toNat_ofNat]
        simp only [bytesOf, List.map_cons, List.take_succ_cons, List.sum_cons]
        congr 2
        omega
    · rw [List.map_cons, List.mem_cons, not_or] at hi
      rw [hother i hi.2, List.lookup_cons, beq_false_of_ne hi.1]

/-- The slots of a method are those of its variables, which have different numbers. -/
theorem hasSlots_of_allocateVarSlots {st : BindingState} {vars : List TVariable}
    (hpre : st.varIndex <+: vars) (hids : (vars.map (·.id)).Nodup) {lVars : VarAllocation}
    {n : Word8} (h : allocateVarSlots vars = .ok (lVars, n)) : HasSlots st lVars := by
  intro nam v hv
  simp only [lookupLocalVar, bind_eq_ok] at hv
  obtain ⟨i, -, hi⟩ := hv
  have hmem : st.varIndex[i]? = some v := by
    cases hget : st.varIndex[i]? with
    | none => rw [hget] at hi; cases hi
    | some w => rw [hget] at hi; rw [Except.ok.inj hi]
  obtain ⟨j, hj⟩ := List.mem_iff_getElem?.mp (hpre.subset (List.mem_of_getElem? hmem))
  exact ⟨_, (allocateVarSlots_lookup h hids).1 j v hj⟩

/-- Both operands are given the larger of their types. -/
theorem typePromoteCheck_arithmetic {lVars : VarAllocation} {t u : Typ} {e e' : TExpression}
    (he : Arithmetic lVars t e) (hu : u ≠ .void) (h : typePromoteCheck u e = .ok e') :
    Arithmetic lVars u e' := by
  unfold typePromoteCheck at h
  rw [he.typeOf] at h
  split at h
  · next heq =>
    obtain rfl := Except.ok.inj h
    exact heq ▸ he
  · split at h
    · next hne hlt =>
      obtain rfl := Except.ok.inj h
      cases u with
      | void => exact absurd rfl hu
      | byte => exact absurd hlt (Nat.not_lt_zero _)
      | short =>
        cases t with
        | byte => exact .toShort he
        | short => exact absurd rfl hne
        | void => exact absurd rfl he.not_void
    · exact (nomatch h)

theorem typeCastCheck_arithmetic {lVars : VarAllocation} {t u : Typ} {e e' : TExpression}
    (he : Arithmetic lVars t e) (hu : u ≠ .void) (h : typeCastCheck u e = .ok e') :
    Arithmetic lVars u e' := by
  unfold typeCastCheck at h
  rw [he.typeOf, if_neg hu, if_neg he.not_void] at h
  split at h
  · next heq =>
    obtain rfl := Except.ok.inj h
    exact heq ▸ he
  · next hne =>
    obtain rfl := Except.ok.inj h
    cases u with
    | void => exact absurd rfl hu
    | byte =>
      cases t with
      | byte => exact absurd rfl hne
      | short => exact .toByte he
      | void => exact absurd rfl he.not_void
    | short =>
      cases t with
      | byte => exact .toShort he
      | short => exact absurd rfl hne
      | void => exact absurd rfl he.not_void

/-- The type checker makes arithmetic of arithmetic. -/
theorem buildTExpression_arithmetic {st : BindingState} {lVars : VarAllocation}
    (hslots : HasSlots st lVars) : ∀ (x : Expression) {e : TExpression}, ArithmeticSource st x →
      buildTExpression st x = .ok e → ∃ t, Arithmetic lVars t e
  | .shortLiteral v, e, _, h => by
    obtain rfl := Except.ok.inj h
    exact ⟨_, .shortLiteral v⟩
  | .byteLiteral v, e, _, h => by
    obtain rfl := Except.ok.inj h
    exact ⟨_, .byteLiteral v⟩
  | .variableAccess nam, e, ⟨v, hv, ht⟩, h => by
    rw [buildTExpression, hv] at h
    obtain rfl := Except.ok.inj h
    obtain ⟨slot, hslot⟩ := hslots nam v hv
    exact ⟨_, .localLoad hslot ht⟩
  | .prefixExpression .minus x, e, hx, h => by
    by_cases hlit : (∃ s, x = .shortLiteral s) ∨ ∃ b, x = .byteLiteral b
    · obtain ⟨v, rfl⟩ | ⟨v, rfl⟩ := hlit
      · obtain rfl := Except.ok.inj h
        exact ⟨_, .shortLiteral _⟩
      · obtain rfl := Except.ok.inj h
        exact ⟨_, .byteLiteral _⟩
    · obtain ⟨a, ha, -, -, rfl⟩ := buildTExpression_prefix (by decide) (fun hm => hlit hm.2) h
      obtain ⟨t, ht⟩ := buildTExpression_arithmetic hslots x hx ha
      exact ⟨t, ht.typeOf.symm ▸ .minus ht⟩
  | .prefixExpression .complement x, e, hx, h => by
    obtain ⟨a, ha, -, -, rfl⟩ := buildTExpression_prefix (by decide)
      (fun hm => absurd hm.1 (by decide)) h
    obtain ⟨t, ht⟩ := buildTExpression_arithmetic hslots x hx ha
    exact ⟨t, ht.typeOf.symm ▸ .complement ht⟩
  | .binaryExpression l op r, e, ⟨hop, hl, hr⟩, h => by
    obtain ⟨aop, haop⟩ := Option.isSome_iff_exists.mp hop
    have hlogical : op.isLogical = false := by
      cases op <;> cases haop <;> rfl
    have hcmp : op.isComparison = false := by
      cases op <;> cases haop <;> rfl
    obtain ⟨a, b, lhs, rhs, ha, hb, hlhs, hrhs, hmax, rfl⟩ := buildTExpression_operator hlogical h
    obtain ⟨t, ht⟩ := buildTExpression_arithmetic hslots l hl ha
    obtain ⟨u, hu⟩ := buildTExpression_arithmetic hslots r hr hb
    refine ⟨(typeOf a).max (typeOf b), ?_⟩
    rw [outType, hcmp, if_neg Bool.false_ne_true]
    exact .binary haop (typePromoteCheck_arithmetic ht hmax hlhs) (typePromoteCheck_arithmetic hu hmax hrhs)
  | .typeCast t x, e, ⟨ht, hx⟩, h => by
    simp only [buildTExpression, bind_eq_ok] at h
    obtain ⟨e1, he1, h⟩ := h
    obtain ⟨u, hu⟩ := buildTExpression_arithmetic hslots x hx he1
    exact ⟨t, typeCastCheck_arithmetic hu ht h⟩

/-- A literal has its type. -/
theorem Arithmetic.literal {lVars : VarAllocation} {t : Typ} {e : TExpression} {v : Val}
    (h : Arithmetic lVars t e) (hv : litVal e = some v) :
    (∃ b, t = .byte ∧ e = .byteLiteral b) ∨ ∃ b, t = .short ∧ e = .shortLiteral b := by
  cases h with
  | byteLiteral b => exact .inl ⟨b, rfl, rfl⟩
  | shortLiteral b => exact .inr ⟨b, rfl, rfl⟩
  | localLoad | complement | minus | binary | toShort | toByte => exact (nomatch hv)

theorem evalPrefix_arithmetic {lVars : VarAllocation} {t : Typ} {op : PrefixOp} {e e' : TExpression}
    (hop : op = .complement ∨ op = .minus) (h : Arithmetic lVars t e) (he : evalPrefix op e = some e') :
    Arithmetic lVars t e' := by
  obtain ⟨v, hv⟩ := evalPrefix_inv he
  obtain ⟨b, rfl, rfl⟩ | ⟨b, rfl, rfl⟩ := h.literal hv
  · rcases hop with rfl | rfl
    · exact Option.some.inj he ▸ .byteLiteral _
    · exact Option.some.inj he ▸ .byteLiteral _
  · rcases hop with rfl | rfl
    · exact Option.some.inj he ▸ .shortLiteral _
    · exact Option.some.inj he ▸ .shortLiteral _

theorem evalBinary_arithmetic {lVars : VarAllocation} {t : Typ} {op : BinaryOp} {aop : ArithOp}
    {l r e' : TExpression} (hop : opFor op = some aop) (hl : Arithmetic lVars t l)
    (hr : Arithmetic lVars t r) (he : evalBinary l op r = some e') : Arithmetic lVars t e' := by
  have hlogical : op.isLogical = false := by
    cases op <;> cases hop <;> rfl
  have hcmp : ∀ {n : Nat} (a b : BitVec n), evalComparison a op b = none := by
    intro n a b
    cases op <;> cases hop <;> rfl
  obtain ⟨x, y, hx, hy⟩ := evalBinary_arith_inv hlogical he
  obtain ⟨a, rfl, rfl⟩ | ⟨a, rfl, rfl⟩ := hl.literal hx
  · obtain ⟨b, -, rfl⟩ | ⟨b, ht, -⟩ := hr.literal hy
    · rw [evalBinary_bytes _ _ hlogical, hcmp, Option.map_none, Option.or_none] at he
      obtain ⟨w, -, rfl⟩ := Option.map_eq_some_iff.mp he
      exact .byteLiteral w
    · exact (nomatch ht)
  · obtain ⟨b, ht, -⟩ | ⟨b, -, rfl⟩ := hr.literal hy
    · exact (nomatch ht)
    · rw [evalBinary_shorts, hcmp, Option.map_none, Option.or_none] at he
      obtain ⟨w, -, rfl⟩ := Option.map_eq_some_iff.mp he
      exact .shortLiteral w

/-- Folding leaves arithmetic arithmetic. -/
theorem constantEval_arithmetic {lVars : VarAllocation} {t : Typ} {e : TExpression}
    (h : Arithmetic lVars t e) : Arithmetic lVars t (constantEval e) := by
  induction h with
  | byteLiteral v => exact .byteLiteral v
  | shortLiteral v => exact .shortLiteral v
  | localLoad hslot ht => exact .localLoad hslot ht
  | @complement t e _ ih =>
    show Arithmetic lVars t ((evalPrefix .complement (constantEval e)).getD _)
    cases heval : evalPrefix .complement (constantEval e) with
    | none => exact .complement ih
    | some e' => exact evalPrefix_arithmetic (.inl rfl) ih heval
  | @minus t e _ ih =>
    show Arithmetic lVars t ((evalPrefix .minus (constantEval e)).getD _)
    cases heval : evalPrefix .minus (constantEval e) with
    | none => exact .minus ih
    | some e' => exact evalPrefix_arithmetic (.inr rfl) ih heval
  | @binary t l r op aop hop _ _ ihl ihr =>
    show Arithmetic lVars t ((evalBinary (constantEval l) op (constantEval r)).getD _)
    cases heval : evalBinary (constantEval l) op (constantEval r) with
    | none => exact .binary hop ihl ihr
    | some e' => exact evalBinary_arithmetic hop ihl ihr heval
  | @toShort e _ ih =>
    show Arithmetic lVars .short (evalConversion .short (constantEval e))
    cases hlit : litVal (constantEval e) with
    | none =>
      have hsame : evalConversion .short (constantEval e) = .typeConversion .short (constantEval e) := by
        generalize constantEval e = e' at hlit
        cases e' <;> first | rfl | exact (nomatch hlit)
      exact hsame ▸ .toShort ih
    | some v =>
      obtain ⟨b, -, hb⟩ | ⟨b, ht, -⟩ := ih.literal hlit
      · rw [hb]
        exact .shortLiteral _
      · exact (nomatch ht)
  | @toByte e _ ih =>
    show Arithmetic lVars .byte (evalConversion .byte (constantEval e))
    cases hlit : litVal (constantEval e) with
    | none =>
      have hsame : evalConversion .byte (constantEval e) = .typeConversion .byte (constantEval e) := by
        generalize constantEval e = e' at hlit
        cases e' <;> first | rfl | exact (nomatch hlit)
      exact hsame ▸ .toByte ih
    | some v =>
      obtain ⟨b, ht, -⟩ | ⟨b, -, hb⟩ := ih.literal hlit
      · exact (nomatch ht)
      · rw [hb]
        exact .byteLiteral _

end KeyboardFirmware.Compiler
