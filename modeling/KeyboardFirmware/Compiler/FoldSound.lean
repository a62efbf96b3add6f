/-
  Constant folding against the meaning of expressions.

  `FoldsWell pos e` says that `constantEval e` does on every machine state what `e` does: the same
  value, or the same truth value where `e` stands in a boolean position (`pos`), and the same side
  effects.  It holds of an expression and all its parts exactly when none of these is an inexact
  division of constants (`folds_well_iff`); every other rule of the folder is right.
-/
import KeyboardFirmware.Compiler.Rounding

namespace KeyboardFirmware.Compiler

open Vm

/-! ## The parts of an expression, with their positions -/

/-- The immediate parts, each with whether it stands in a boolean position. -/
def parts : TExpression → List (Bool × TExpression)
  | .globalStore _ _ e => [(false, e)]
  | .localStore _ _ e => [(false, e)]
  | .globalLoad _ _ => []
  | .localLoad _ _ => []
  | .prefixExpression _ op e => [(op = .not, e)]
  | .postfixExpression _ e _ => [(false, e)]
  | .binaryExpression _ l op r => [(op.isLogical, l), (op.isLogical, r)]
  | .shortLiteral _ => []
  | .byteLiteral _ => []
  | .methodCall _ _ args => args.map fun e => (false, e)
  | .syscall _ _ args => args.map fun e => (false, e)
  | .typeConversion _ e => [(false, e)]
  | .booleanConversion e => [(false, e)]

theorem sizeOf_parts {e : TExpression} {q : Bool × TExpression} (h : q ∈ parts e) :
    sizeOf q.2 < sizeOf e := by
  cases e <;> simp only [parts, List.mem_cons, List.not_mem_nil, or_false, List.mem_map] at h
  case methodCall | syscall =>
    obtain ⟨a, ha, rfl⟩ := h
    have := List.sizeOf_lt_of_mem ha
    simp only [TExpression.methodCall.sizeOf_spec, TExpression.syscall.sizeOf_spec]
    omega
  all_goals rcases h with rfl | rfl <;> simp <;> omega

/-- Induction along the parts. -/
theorem parts_induction {motive : TExpression → Prop}
    (step : ∀ e, (∀ q ∈ parts e, motive q.2) → motive e) (e : TExpression) : motive e :=
  step e fun q _ => parts_induction step q.2
termination_by sizeOf e
decreasing_by exact sizeOf_parts ‹_›

/-- A property of an expression and of all its parts, with their positions. -/
inductive EveryPart (P : Bool → TExpression → Prop) : Bool → TExpression → Prop where
  | intro {pos : Bool} {e : TExpression} (here : P pos e)
      (below : ∀ q ∈ parts e, EveryPart P q.1 q.2) : EveryPart P pos e

namespace EveryPart

variable {P : Bool → TExpression → Prop} {pos : Bool} {e : TExpression}

theorem here : EveryPart P pos e → P pos e
  | intro h _ => h

theorem sub : EveryPart P pos e → ∀ q ∈ parts e, EveryPart P q.1 q.2
  | intro _ h => h

end EveryPart

/-- Only boolean positions hold boolean conversions. -/
def WellPlaced : Bool → TExpression → Prop :=
  EveryPart fun pos e => ∀ x, e = .booleanConversion x → pos = true

/-! ## Values of constants -/

/-- The value of a literal. -/
def litVal : TExpression → Option Val
  | .byteLiteral v => some (.byte v)
  | .shortLiteral v => some (.short v)
  | _ => none

/-- The value, by the VM's operators, of an expression that needs neither variables nor calls. -/
def constVal : TExpression → Option Val
  | .byteLiteral v => some (.byte v)
  | .shortLiteral v => some (.short v)
  | .prefixExpression _ op e => do prefixVal op (← constVal e)
  | .binaryExpression _ l .conj r => do
    if ← (← constVal l).truth then pure (.ofBool (← (← constVal r).truth)) else pure (.ofBool false)
  | .binaryExpression _ l .disj r => do
    if ← (← constVal l).truth then pure (.ofBool true) else pure (.ofBool (← (← constVal r).truth))
  | .binaryExpression _ l op r => do binaryVal op (← constVal l) (← constVal r)
  | .typeConversion t e => do convertVal t (← constVal e)
  | .booleanConversion e => do booleanVal (← constVal e)
  | _ => none

theorem constVal_binaryExpression {t : Typ} {l r : TExpression} {v : Val} {op : BinaryOp}
    (hop : op.isLogical = false) :
    constVal (.binaryExpression t l op r) = some v ↔
      ∃ a b, constVal l = some a ∧ constVal r = some b ∧ binaryVal op a b = some v := by
  cases op <;> simp_all [constVal, Option.bind_eq_some_iff, BinaryOp.isLogical]

/-- `inexact` on two values, in a value position or in a boolean one. -/
def inexactVal (pos : Bool) (op : BinaryOp) : Val → Val → Bool
  | .byte a, .byte b => if pos then inexactTruth op a b else inexact op a b
  | .short a, .short b => inexact op a b
  | _, _ => false

/-- `divRaises` on two values. -/
def raisesVal (op : BinaryOp) : Val → Val → Bool
  | .byte a, .byte b => divRaises op a b
  | .short a, .short b => divRaises op a b
  | _, _ => false

/-- A division or remainder of constants that the folder does not compute as the VM does. -/
def inexactDivision (pos : Bool) : TExpression → Bool
  | .binaryExpression _ l op r =>
    match constVal l, constVal r with
    | some a, some b => inexactVal pos op a b
    | _, _ => false
  | _ => false

/-- The folder raises an exception at this operator. -/
def foldRaises : TExpression → Bool
  | .binaryExpression _ l op r =>
    match litVal (constantEval l), litVal (constantEval r) with
    | some a, some b => raisesVal op a b
    | _, _ => false
  | _ => false

/-- The values agree; the bytes of a boolean position agree in their truth. -/
def Agree : Bool → Val → Val → Prop
  | true, .byte a, .byte b => (b != 0) = (a != 0)
  | _, v, v' => v' = v

/-- Wherever the expression has a value, folding it raises no exception, and the folded expression
    has that value and leaves the same state. -/
def FoldsWell (pos : Bool) (e : TExpression) : Prop :=
  ∀ (σ : Type) (M : Machine σ) (s : MState σ) (v : Val) (s' : MState σ),
    evalT M e s = some (v, s') →
      foldRaises e = false ∧ ∃ v', evalT M (constantEval e) s = some (v', s') ∧ Agree pos v v'

theorem Agree.refl (pos : Bool) (v : Val) : Agree pos v v := by
  cases pos <;> cases v <;> rfl

/-! ## Evaluation, inverted -/

section Inversion

variable {σ : Type} {M : Machine σ} {s s' : MState σ} {v : Val} {t : Typ} {e l r : TExpression}

theorem evalT_litVal (h : litVal e = some v) : evalT M e s = some (v, s) := by
  cases e <;> simp_all [litVal, evalT]

theorem evalT_prefixExpression {op : PrefixOp} (hop : op ≠ .preincrement ∧ op ≠ .predecrement) :
    evalT M (.prefixExpression t op e) s = some (v, s') ↔
      ∃ x, evalT M e s = some (x, s') ∧ prefixVal op x = some v := by
  cases op <;> simp_all [evalT, Option.bind_eq_some_iff]

theorem evalT_binaryExpression {op : BinaryOp} (hop : op.isLogical = false) :
    evalT M (.binaryExpression t l op r) s = some (v, s') ↔
      ∃ a s1 b, evalT M l s = some (a, s1) ∧ evalT M r s1 = some (b, s') ∧
        binaryVal op a b = some v := by
  cases op <;> simp_all [evalT, Option.bind_eq_some_iff, BinaryOp.isLogical]

/-- The right operand is left out when the left one already decides. -/
theorem evalT_logical {op : BinaryOp} (hop : op.isLogical = true) :
    evalT M (.binaryExpression t l op r) s = some (v, s') ↔
      ∃ a s1 b, evalT M l s = some (a, s1) ∧ a.truth = some b ∧
        if b = decide (op = .disj) then v = .ofBool b ∧ s' = s1
        else ∃ c d, evalT M r s1 = some (c, s') ∧ c.truth = some d ∧ v = .ofBool d := by
  cases op <;> simp_all [evalT, Option.bind_eq_some_iff, BinaryOp.isLogical]
  all_goals grind

theorem constVal_logical {op : BinaryOp} (hop : op.isLogical = true) :
    constVal (.binaryExpression t l op r) = some v ↔
      ∃ a b, constVal l = some a ∧ a.truth = some b ∧
        if b = decide (op = .disj) then v = .ofBool b
        else ∃ c d, constVal r = some c ∧ c.truth = some d ∧ v = .ofBool d := by
  cases op <;> simp_all [constVal, Option.bind_eq_some_iff, BinaryOp.isLogical]
  all_goals grind

end Inversion

/-- A constant has its value on every machine state, without side effects. -/
theorem evalT_constVal {σ : Type} {M : Machine σ} (s : MState σ) (e : TExpression) :
    ∀ {v : Val}, constVal e = some v → evalT M e s = some (v, s) := by
  induction e using parts_induction with
  | step e ih =>
    intro v h
    cases e <;> try (simp only [constVal, reduceCtorEq] at h; done)
    case byteLiteral | shortLiteral => exact evalT_litVal h
    case prefixExpression t op e =>
      obtain ⟨x, hx, hv⟩ := Option.bind_eq_some_iff.mp h
      have hop : op ≠ .preincrement ∧ op ≠ .predecrement := by
        constructor <;> rintro rfl <;> cases x <;> simp [prefixVal] at hv
      exact (evalT_prefixExpression hop).mpr ⟨x, ih (decide (op = .not), e) (by simp [parts]) hx, hv⟩
    case binaryExpression t l op r =>
      have hl : ∀ {a}, constVal l = some a → evalT M l s = some (a, s) :=
        fun h => ih (op.isLogical, l) (by simp [parts]) h
      have hr : ∀ {a}, constVal r = some a → evalT M r s = some (a, s) :=
        fun h => ih (op.isLogical, r) (by simp [parts]) h
      cases hop : op.isLogical with
      | false =>
        obtain ⟨a, b, ha, hb, hv⟩ := (constVal_binaryExpression hop).mp h
        exact (evalT_binaryExpression hop).mpr ⟨a, s, b, hl ha, hr hb, hv⟩
      | true =>
        obtain ⟨a, b, ha, hb, hv⟩ := (constVal_logical hop).mp h
        refine (evalT_logical hop).mpr ⟨a, s, b, hl ha, hb, ?_⟩
        split at hv
        · rw [if_pos ‹_›]; exact ⟨hv, rfl⟩
        · obtain ⟨c, d, hc, hd, hv⟩ := hv
          rw [if_neg ‹_›]; exact ⟨c, d, hr hc, hd, hv⟩
    case typeConversion t e =>
      obtain ⟨x, hx, hv⟩ := Option.bind_eq_some_iff.mp h
      exact evalT_typeConversion.mpr ⟨x, ih (false, e) (by simp [parts]) hx, hv⟩
    case booleanConversion e =>
      obtain ⟨x, hx, hv⟩ := Option.bind_eq_some_iff.mp h
      exact evalT_booleanConversion.mpr ⟨x, ih (false, e) (by simp [parts]) hx, hv⟩

/-! ## The folder's rules on literals -/

/-- The arithmetic and relational operators fold two literals, and nothing else. -/
theorem evalBinary_arith_inv {op : BinaryOp} {l r e' : TExpression} (hop : op.isLogical = false)
    (h : evalBinary l op r = some e') : ∃ a b, litVal l = some a ∧ litVal r = some b := by
  cases op <;> simp only [BinaryOp.isLogical, reduceCtorEq] at hop
  all_goals (unfold evalBinary at h; split at h <;> simp_all [litVal])

theorem evalBinary_bytes {op : BinaryOp} (a b : VByte) (hop : op.isLogical = false) :
    evalBinary (.byteLiteral a) op (.byteLiteral b) =
      ((evalArith a op b).map .byteLiteral).or
        ((evalComparison a op b).map fun c => .byteLiteral (boolByte c)) := by
  cases op <;> first | rfl | cases hop

theorem evalBinary_shorts (op : BinaryOp) (a b : VShort) :
    evalBinary (.shortLiteral a) op (.shortLiteral b) =
      ((evalArith a op b).map .shortLiteral).or
        ((evalComparison a op b).map fun c => .byteLiteral (boolByte c)) := by
  cases op <;> rfl

theorem not_logical_of_binaryVal {op : BinaryOp} {a b v : Val} (h : binaryVal op a b = some v) :
    op.isLogical = false := by
  cases op <;> first | rfl | (cases a <;> cases b <;> simp [binaryVal, vmArith, vmCompare,
    BinaryOp.isComparison] at h)

/-- Two literals with a value fold to a literal: of that value exactly when they are exact. -/
theorem evalBinary_arith {op : BinaryOp} {l r : TExpression} {a b v : Val}
    (ha : litVal l = some a) (hb : litVal r = some b) (hv : binaryVal op a b = some v) :
    ∃ e' w, evalBinary l op r = some e' ∧ litVal e' = some w ∧
      ∀ pos, raisesVal op a b = false ∧ Agree pos v w ↔ inexactVal pos op a b = false := by
  have hop := not_logical_of_binaryVal hv
  cases l <;> simp only [litVal, reduceCtorEq, Option.some.injEq] at ha <;> subst ha <;>
    cases r <;> simp only [litVal, reduceCtorEq, Option.some.injEq] at hb <;> subst hb <;>
    simp only [binaryVal, reduceCtorEq] at hv
  case shortLiteral.shortLiteral a b =>
    rw [evalBinary_shorts, evalComparison_eq]
    cases hx : vmArith op a b with
    | some x =>
      rw [hx] at hv
      obtain ⟨w, hw⟩ := evalArith_of_vmArith hx
      have hiff := evalArith_iff (by decide) hx
      cases hv
      refine ⟨_, .short w, by rw [hw]; rfl, rfl, ?_⟩
      rintro (_ | _) <;> simpa [hw, raisesVal, inexactVal, Agree] using hiff
    | none =>
      obtain ⟨c, hc, hcv⟩ : ∃ c, vmCompare op a b = some c ∧ Val.ofBool c = v := by simpa [hx] using hv
      obtain ⟨hraise, hexact, htruth⟩ := divRaises_of_comparison hc
      refine ⟨_, v, by rw [(evalArith_none_of_comparison hc).1, hc]; rfl, ?_, ?_⟩
      · rw [← hcv]; rfl
      · rintro (_ | _) <;> simp [raisesVal, inexactVal, Agree.refl, hraise, hexact]
  case byteLiteral.byteLiteral a b =>
    rw [evalBinary_bytes a b hop, evalComparison_eq]
    cases hx : vmArith op a b with
    | some x =>
      rw [hx] at hv
      obtain ⟨w, hw⟩ := evalArith_of_vmArith hx
      have hiff := evalArith_iff (by decide) hx
      have htruth := evalArith_truth_iff (by decide) hx hw
      cases hv
      refine ⟨_, .byte w, by rw [hw]; rfl, rfl, ?_⟩
      rintro (_ | _)
      · simpa [hw, raisesVal, inexactVal, Agree] using hiff
      · simpa [raisesVal, inexactVal, Agree] using htruth
    | none =>
      obtain ⟨c, hc, hcv⟩ : ∃ c, vmCompare op a b = some c ∧ Val.ofBool c = v := by simpa [hx] using hv
      obtain ⟨hraise, hexact, htruth⟩ := divRaises_of_comparison hc
      refine ⟨_, v, by rw [(evalArith_none_of_comparison hc).1, hc]; rfl, ?_, ?_⟩
      · rw [← hcv]; rfl
      · rintro (_ | _) <;> simp [raisesVal, inexactVal, Agree.refl, hraise, hexact, htruth]

/-- `&&` and `||` fold when the left side decides, or when both sides are literals. -/
theorem evalBinary_logical {op : BinaryOp} (hop : op.isLogical = true) (a : VByte)
    (r : TExpression) :
    evalBinary (.byteLiteral a) op r =
      if (a != 0) = decide (op = .disj) then some (.byteLiteral (boolByte (decide (op = .disj))))
      else
        match r with
        | .byteLiteral b => some (.byteLiteral (boolByte (b != 0)))
        | _ => none := by
  cases op <;> simp only [BinaryOp.isLogical, reduceCtorEq] at hop
  all_goals
    cases r <;> simp [evalBinary, boolByte]
    grind

theorem evalBinary_logical_inv {op : BinaryOp} {l r e' : TExpression} (hop : op.isLogical = true)
    (h : evalBinary l op r = some e') : ∃ a, l = .byteLiteral a := by
  cases op <;> simp only [BinaryOp.isLogical, reduceCtorEq] at hop
  all_goals
    unfold evalBinary at h
    split at h <;> first | exact ⟨_, rfl⟩ | simp_all [evalArith, evalComparison]

theorem litVal_truth {e : TExpression} {w : Val} {b : Bool} (he : litVal e = some w)
    (hw : w.truth = some b) : ∃ a, e = .byteLiteral a ∧ (a != 0) = b := by
  cases e <;> simp_all [litVal]
  all_goals (subst he; simp_all [Val.truth])

theorem evalPrefix_lit {op : PrefixOp} {e : TExpression} {x v : Val} (he : litVal e = some x)
    (hv : prefixVal op x = some v) : ∃ e', evalPrefix op e = some e' ∧ litVal e' = some v := by
  cases e <;> simp only [litVal, reduceCtorEq, Option.some.injEq] at he <;> subst he <;>
    cases op <;> simp_all [prefixVal, evalPrefix, litVal, Val.ofBool, boolByte]

theorem evalPrefix_inv {op : PrefixOp} {e e' : TExpression} (h : evalPrefix op e = some e') :
    ∃ x, litVal e = some x := by
  unfold evalPrefix at h
  split at h <;> simp_all [litVal]

theorem evalConversion_lit {t : Typ} {e : TExpression} {x v : Val} (he : litVal e = some x)
    (hv : convertVal t x = some v) (hvoid : v ≠ .void) : litVal (evalConversion t e) = some v := by
  cases e <;> simp only [litVal, reduceCtorEq, Option.some.injEq] at he <;> subst he <;>
    cases t <;> simp_all [convertVal, evalConversion, litVal, vmS2B, vmB2S]

/-- A short and the union of its bytes are zero together. -/
theorem union_bne_zero (v : VShort) : (Vm.lowByte v ||| Vm.highByte v != 0) = (v != 0) := by
  by_cases hv : v = 0
  · subst hv
    rfl
  · have hu : Vm.lowByte v ||| Vm.highByte v ≠ 0 := by
      intro h
      have hor : Vm.lowByte v = 0 ∧ Vm.highByte v = 0 := by simpa [BitVec.or_eq_zero_iff] using h
      refine hv ?_
      rw [← shortOf_bytes v, hor.1, hor.2]
      rfl
    rw [bne_iff_ne.mpr hv, bne_iff_ne.mpr hu]

theorem boolByte_bne (b : Bool) : (boolByte b != 0) = b := by cases b <;> rfl

theorem evalBoolean_lit {e : TExpression} {x v : Val} (he : litVal e = some x)
    (hv : booleanVal x = some v) : ∃ w, litVal (evalBoolean e) = some w ∧ Agree true v w := by
  cases e <;> simp only [litVal, reduceCtorEq, Option.some.injEq] at he <;> subst he <;>
    simp only [booleanVal, Option.some.injEq] at hv <;> subst hv <;>
    simp only [evalBoolean, litVal, Option.some.injEq, exists_eq_left', Agree, boolByte_bne,
      union_bne_zero]

/-! ## Literals and constants

Once its parts fold well, an expression folds to a literal exactly when it is a constant. -/

/-- A folded literal is the value of the expression. -/
theorem FoldsWell.lit {pos : Bool} {e : TExpression} (h : FoldsWell pos e) {w : Val}
    (hw : litVal (constantEval e) = some w) {σ : Type} {M : Machine σ} {s s' : MState σ} {v : Val}
    (hv : evalT M e s = some (v, s')) : s' = s ∧ Agree pos v w := by
  obtain ⟨-, v', hv', hag⟩ := h σ M s v s' hv
  rw [evalT_litVal hw] at hv'
  cases hv'
  exact ⟨rfl, hag⟩

/-- The machine without variables, methods and system calls. -/
def bareMachine : Machine Unit where
  load _ _ _ := .void
  store _ _ _ := ()
  call _ _ _ := none
  syscall _ _ _ := none

theorem Agree.truth {pos : Bool} {v w : Val} {b : Bool} (h : Agree pos v w)
    (hv : v.truth = some b) : w.truth = some b := by
  cases pos <;> cases v <;> cases w <;> simp_all [Agree, Val.truth]

/-- A prefix operator asks no more of its operand than the position promises. -/
theorem prefixVal_agree {op : PrefixOp} {x x' v : Val} (h : Agree (decide (op = .not)) x x')
    (hv : prefixVal op x = some v) : prefixVal op x' = some v := by
  by_cases hop : op = .not
  · subst hop
    cases x <;> simp only [prefixVal, reduceCtorEq, Option.some.injEq] at hv
    cases x' <;> simp_all [Agree, prefixVal]
    grind
  · rw [decide_eq_false hop] at h
    cases h
    exact hv

theorem prefixVal_not_void {op : PrefixOp} {v : Val} (h : prefixVal op .void = some v) : False := by
  cases op <;> cases h

theorem binaryVal_not_void {op : BinaryOp} {a b v : Val} (h : binaryVal op a b = some v) :
    a ≠ .void ∧ b ≠ .void := by
  cases a <;> cases b <;> simp_all [binaryVal]

theorem truth_not_void {v : Val} {b : Bool} (h : v.truth = some b) : v ≠ .void := by
  rintro rfl
  cases h

/-- A constant folds to a literal of its value. -/
theorem constVal_folds (e : TExpression) :
    ∀ {pos : Bool} {v : Val}, EveryPart FoldsWell pos e → constVal e = some v → v ≠ .void →
      ∃ w, litVal (constantEval e) = some w ∧ Agree pos v w := by
  induction e using parts_induction with
  | step e ih =>
    intro pos v hw hc hvoid
    suffices h : ∃ w, litVal (constantEval e) = some w by
      obtain ⟨w, hlit⟩ := h
      exact ⟨w, hlit, (hw.here.lit hlit (evalT_constVal (M := bareMachine) ⟨(), []⟩ e hc)).2⟩
    have hsub : ∀ q ∈ parts e, ∀ {x : Val}, constVal q.2 = some x → x ≠ .void →
        ∃ w, litVal (constantEval q.2) = some w ∧ Agree q.1 x w :=
      fun q hq _ hx hv => ih q hq (hw.sub q hq) hx hv
    cases e <;> try (simp only [constVal, reduceCtorEq] at hc; done)
    case byteLiteral | shortLiteral => exact ⟨v, hc⟩
    case prefixExpression t op e =>
      obtain ⟨x, hx, hv⟩ := Option.bind_eq_some_iff.mp hc
      have hx0 : x ≠ .void := by
        rintro rfl
        exact prefixVal_not_void hv
      obtain ⟨w, hlit, hag⟩ := hsub (decide (op = .not), e) (by simp [parts]) hx hx0
      obtain ⟨e', he', hlit'⟩ := evalPrefix_lit hlit (prefixVal_agree hag hv)
      refine ⟨v, ?_⟩
      show litVal ((evalPrefix op (constantEval e)).getD _) = some v
      rw [he']
      exact hlit'
    case binaryExpression t l op r =>
      have hl := @hsub (op.isLogical, l) (by simp [parts])
      have hr := @hsub (op.isLogical, r) (by simp [parts])
      show ∃ w, litVal ((evalBinary (constantEval l) op (constantEval r)).getD _) = some w
      cases hop : op.isLogical with
      | false =>
        rw [hop] at hl hr
        obtain ⟨a, b, ha, hb, hv⟩ := (constVal_binaryExpression hop).mp hc
        obtain ⟨ha0, hb0⟩ := binaryVal_not_void hv
        obtain ⟨_, hla, rfl⟩ := hl ha ha0
        obtain ⟨_, hlb, rfl⟩ := hr hb hb0
        obtain ⟨e', w, he', hw', -⟩ := evalBinary_arith hla hlb hv
        exact ⟨w, by rw [he']; exact hw'⟩
      | true =>
        obtain ⟨a, b, ha, hb, hv⟩ := (constVal_logical hop).mp hc
        obtain ⟨wa, hla, hag⟩ := hl ha (truth_not_void hb)
        rw [hop] at hag
        obtain ⟨la, hla', hba⟩ := litVal_truth hla (hag.truth hb)
        rw [hla', evalBinary_logical hop, hba]
        split at hv
        · rw [if_pos ‹_›]; exact ⟨_, rfl⟩
        · obtain ⟨c, d, hc, hd, -⟩ := hv
          obtain ⟨wc, hlc, hag⟩ := hr hc (truth_not_void hd)
          obtain ⟨lc, hlc', -⟩ := litVal_truth hlc (hag.truth hd)
          rw [if_neg ‹_›, hlc']
          exact ⟨_, rfl⟩
    case typeConversion t e =>
      obtain ⟨x, hx, hv⟩ := Option.bind_eq_some_iff.mp hc
      have hx0 : x ≠ .void := by
        rintro rfl
        cases t <;> simp_all [convertVal]
      obtain ⟨w, hlit, rfl⟩ := hsub (false, e) (by simp [parts]) hx hx0
      exact ⟨v, evalConversion_lit hlit hv hvoid⟩
    case booleanConversion e =>
      obtain ⟨x, hx, hv⟩ := Option.bind_eq_some_iff.mp hc
      have hx0 : x ≠ .void := by
        rintro rfl
        cases hv
      obtain ⟨w, hlit, rfl⟩ := hsub (false, e) (by simp [parts]) hx hx0
      obtain ⟨w', hw', -⟩ := evalBoolean_lit hlit hv
      exact ⟨w', hw'⟩

theorem evalConversion_inv {t : Typ} {e : TExpression} {w : Val}
    (h : litVal (evalConversion t e) = some w) : ∃ x, litVal e = some x := by
  unfold evalConversion at h
  split at h <;> simp_all [litVal]

theorem evalBoolean_inv {e : TExpression} {w : Val} (h : litVal (evalBoolean e) = some w) :
    ∃ x, litVal e = some x := by
  unfold evalBoolean at h
  split at h <;> simp_all [litVal]

/-- An expression that folds to a literal is a constant, if it has a value at all. -/
theorem folds_constVal {σ : Type} {M : Machine σ} (e : TExpression) :
    ∀ {pos : Bool} {w v : Val} {s s' : MState σ}, EveryPart FoldsWell pos e →
      litVal (constantEval e) = some w → evalT M e s = some (v, s') → constVal e = some v := by
  induction e using parts_induction with
  | step e ih =>
    intro pos w v s s' hw hlit hv
    have hsub : ∀ q ∈ parts e, ∀ {w x : Val} {s s' : MState σ},
        litVal (constantEval q.2) = some w → evalT M q.2 s = some (x, s') →
          s' = s ∧ Agree q.1 x w ∧ constVal q.2 = some x :=
      fun q hq _ _ _ _ hlit hx =>
        have hag := (hw.sub q hq).here.lit hlit hx
        ⟨hag.1, hag.2, ih q hq (hw.sub q hq) hlit hx⟩
    cases e <;> try (simp only [constantEval, litVal, reduceCtorEq] at hlit; done)
    case byteLiteral | shortLiteral =>
      simp only [evalT, Option.some.injEq, Prod.mk.injEq] at hv
      rw [← hv.1]
      rfl
    case prefixExpression t op e =>
      cases he : evalPrefix op (constantEval e) with
      | none =>
        simp only [constantEval, he] at hlit
        cases hlit
      | some e' =>
        obtain ⟨x, hx⟩ := evalPrefix_inv he
        have hop : op ≠ .preincrement ∧ op ≠ .predecrement := by
          constructor <;> rintro rfl <;> simp [evalPrefix] at he
        obtain ⟨y, hy, hyv⟩ := (evalT_prefixExpression hop).mp hv
        obtain ⟨-, -, hc⟩ := hsub (decide (op = .not), e) (by simp [parts]) hx hy
        exact Option.bind_eq_some_iff.mpr ⟨y, hc, hyv⟩
    case binaryExpression t l op r =>
      have hl := @hsub (op.isLogical, l) (by simp [parts])
      have hr := @hsub (op.isLogical, r) (by simp [parts])
      cases he : evalBinary (constantEval l) op (constantEval r) with
      | none =>
        simp only [constantEval, he] at hlit
        cases hlit
      | some e' =>
        cases hop : op.isLogical with
        | false =>
          obtain ⟨a, b, ha, hb⟩ := evalBinary_arith_inv hop he
          obtain ⟨x, s1, y, hx, hy, hxy⟩ := (evalT_binaryExpression hop).mp hv
          exact (constVal_binaryExpression hop).mpr
            ⟨x, y, (hl ha hx).2.2, (hr hb hy).2.2, hxy⟩
        | true =>
          obtain ⟨a, ha⟩ := evalBinary_logical_inv hop he
          obtain ⟨x, s1, b, hx, hb, hrest⟩ := (evalT_logical hop).mp hv
          obtain ⟨-, hag, hc⟩ := hl (by rw [ha]; rfl) hx
          have hab : (a != 0) = b := by
            simpa [Val.truth] using hag.truth hb
          refine (constVal_logical hop).mpr ⟨x, b, hc, hb, ?_⟩
          rw [ha, evalBinary_logical hop, hab] at he
          split at hrest
          · rw [if_pos ‹_›]; exact hrest.1
          · obtain ⟨c, d, hy, hd, hvd⟩ := hrest
            rw [if_neg ‹_›] at he ⊢
            split at he
            · rename_i y hr'
              exact ⟨c, d, (hr (by rw [hr']; rfl) hy).2.2, hd, hvd⟩
            · cases he
    case typeConversion t e =>
      obtain ⟨x, hx⟩ := evalConversion_inv hlit
      obtain ⟨y, hy, hyv⟩ := evalT_typeConversion.mp hv
      obtain ⟨-, -, hc⟩ := hsub (false, e) (by simp [parts]) hx hy
      exact Option.bind_eq_some_iff.mpr ⟨y, hc, hyv⟩
    case booleanConversion e =>
      obtain ⟨x, hx⟩ := evalBoolean_inv hlit
      obtain ⟨y, hy, hyv⟩ := evalT_booleanConversion.mp hv
      obtain ⟨-, -, hc⟩ := hsub (false, e) (by simp [parts]) hx hy
      exact Option.bind_eq_some_iff.mpr ⟨y, hc, hyv⟩

/-! ## Folding one node -/

section Node

variable {σ : Type} {M : Machine σ} {s s' : MState σ}

theorem evalT_evalPrefix {t : Typ} {op : PrefixOp} {e : TExpression} {x v : Val}
    (hop : op ≠ .preincrement ∧ op ≠ .predecrement) (he : evalT M e s = some (x, s'))
    (hv : prefixVal op x = some v) :
    evalT M ((evalPrefix op e).getD (.prefixExpression t op e)) s = some (v, s') := by
  cases h : evalPrefix op e with
  | none => exact (evalT_prefixExpression hop).mpr ⟨x, he, hv⟩
  | some e' =>
    obtain ⟨w, hw⟩ := evalPrefix_inv h
    rw [evalT_litVal hw] at he
    cases he
    obtain ⟨e'', he'', hlit⟩ := evalPrefix_lit hw hv
    rw [h] at he''
    cases he''
    exact evalT_litVal hlit

theorem evalT_evalConversion {t : Typ} {e : TExpression} {x v : Val}
    (he : evalT M e s = some (x, s')) (hv : convertVal t x = some v) :
    evalT M (evalConversion t e) s = some (v, s') := by
  unfold evalConversion
  split
  · cases he; cases hv; rfl
  · cases he; cases hv; rfl
  · exact evalT_typeConversion.mpr ⟨x, he, hv⟩

theorem evalT_evalBoolean {e : TExpression} {x v : Val} (he : evalT M e s = some (x, s'))
    (hv : booleanVal x = some v) :
    ∃ v', evalT M (evalBoolean e) s = some (v', s') ∧ Agree true v v' := by
  cases hlit : litVal e with
  | some w =>
    rw [evalT_litVal hlit] at he
    cases he
    obtain ⟨w', hw', ht⟩ := evalBoolean_lit hlit hv
    exact ⟨w', evalT_litVal hw', ht⟩
  | none =>
    have hb : evalBoolean e = .booleanConversion e := by
      cases e <;> simp_all [litVal, evalBoolean]
    exact ⟨v, by rw [hb]; exact evalT_booleanConversion.mpr ⟨x, he, hv⟩, Agree.refl true v⟩

theorem evalT_evalLogical {t : Typ} {op : BinaryOp} {l r : TExpression} {v : Val}
    (hop : op.isLogical = true) (h : evalT M (.binaryExpression t l op r) s = some (v, s')) :
    evalT M ((evalBinary l op r).getD (.binaryExpression t l op r)) s = some (v, s') := by
  cases he : evalBinary l op r with
  | none => exact h
  | some e' =>
    obtain ⟨a, rfl⟩ := evalBinary_logical_inv hop he
    obtain ⟨x, s1, b, hx, hb, hrest⟩ := (evalT_logical hop).mp h
    simp only [evalT, Option.some.injEq, Prod.mk.injEq] at hx
    obtain ⟨rfl, rfl⟩ := hx
    simp only [Val.truth, Option.some.injEq] at hb
    rw [evalBinary_logical hop, hb] at he
    split at hrest
    · rename_i hstop
      rw [if_pos hstop] at he
      cases he
      rw [← hstop, hrest.1, hrest.2]
      rfl
    · obtain ⟨c, d, hy, hd, rfl⟩ := hrest
      rw [if_neg ‹_›] at he
      split at he
      · simp only [evalT, Option.some.injEq, Prod.mk.injEq] at hy
        obtain ⟨rfl, rfl⟩ := hy
        simp only [Val.truth, Option.some.injEq] at hd
        subst hd
        cases he
        rfl
      · cases he

/-- An increment works on a load, which folding leaves alone. -/
theorem evalStep_fold {up : Bool} {e : TExpression} {r : Val × Val × MState σ}
    (h : evalStep M up e s = some r) : evalStep M up (constantEval e) s = some r := by
  have hload : loadedVar (constantEval e) = loadedVar e := by
    cases e <;> first | rfl | simp [evalStep, loadedVar] at h
  unfold evalStep
  rw [hload]
  exact h

theorem evalArgs_fold (args : List TExpression) (hw : ∀ e ∈ args, FoldsWell false e) :
    ∀ {s s' : MState σ} {vs : List Val}, evalArgs M args s = some (vs, s') →
      evalArgs M (constantEvalArgs args) s = some (vs, s') := by
  induction args with
  | nil => exact fun h => h
  | cons e es ih =>
    intro s s' vs h
    simp only [evalArgs, Option.bind_eq_bind, Option.bind_eq_some_iff, Prod.exists] at h
    obtain ⟨v, s1, hv, vs', s2, hvs, h⟩ := h
    obtain ⟨-, v', hv', rfl⟩ := hw e (by simp) σ M s v s1 hv
    have hrest := ih (fun e he => hw e (by simp [he])) hvs
    cases h
    simp [constantEvalArgs, evalArgs, hv', hrest]

end Node

theorem raisesVal_logical {op : BinaryOp} (hop : op.isLogical = true) (a b : Val) :
    raisesVal op a b = false := by
  cases op <;> simp only [BinaryOp.isLogical, reduceCtorEq] at hop <;> cases a <;> cases b <;> rfl

/-- An arithmetic or relational operator whose constant operands are not inexact folds well. -/
theorem foldsWell_arith {t : Typ} {op : BinaryOp} {l r : TExpression} {pos : Bool}
    (hop : op.isLogical = false) (hl : EveryPart FoldsWell false l)
    (hr : EveryPart FoldsWell false r)
    (hx : inexactDivision pos (.binaryExpression t l op r) = false) :
    FoldsWell pos (.binaryExpression t l op r) := by
  intro σ M s v s' hv
  obtain ⟨a, s1, b, ha, hb, hab⟩ := (evalT_binaryExpression hop).mp hv
  obtain ⟨-, a, ha', rfl⟩ := hl.here σ M s a s1 ha
  obtain ⟨-, b, hb', rfl⟩ := hr.here σ M s1 b s' hb
  show (match litVal (constantEval l), litVal (constantEval r) with
      | some a, some b => raisesVal op a b
      | _, _ => false) = false ∧ ∃ v', evalT M ((evalBinary (constantEval l) op
        (constantEval r)).getD (.binaryExpression t (constantEval l) op (constantEval r))) s =
      some (v', s') ∧ Agree pos v v'
  cases hla : litVal (constantEval l) with
  | none =>
    have he : evalBinary (constantEval l) op (constantEval r) = none := by
      refine Option.eq_none_iff_forall_ne_some.mpr fun e' he => ?_
      obtain ⟨_, _, h, -⟩ := evalBinary_arith_inv hop he
      rw [hla] at h
      cases h
    rw [he]
    exact ⟨rfl, v, (evalT_binaryExpression hop).mpr ⟨a, s1, b, ha', hb', hab⟩, Agree.refl pos v⟩
  | some wa =>
    cases hlb : litVal (constantEval r) with
    | none =>
      have he : evalBinary (constantEval l) op (constantEval r) = none := by
        refine Option.eq_none_iff_forall_ne_some.mpr fun e' he => ?_
        obtain ⟨_, _, -, h⟩ := evalBinary_arith_inv hop he
        rw [hlb] at h
        cases h
      rw [he]
      exact ⟨rfl, v, (evalT_binaryExpression hop).mpr ⟨a, s1, b, ha', hb', hab⟩, Agree.refl pos v⟩
    | some wb =>
      have hca := folds_constVal l hl hla ha
      have hcb := folds_constVal r hr hlb hb
      simp only [inexactDivision, hca, hcb] at hx
      obtain ⟨rfl, rfl⟩ := hl.here.lit hla ha
      obtain ⟨rfl, rfl⟩ := hr.here.lit hlb hb
      obtain ⟨e', w, he, hw, hiff⟩ := evalBinary_arith hla hlb hab
      obtain ⟨hraise, hag⟩ := (hiff pos).mpr hx
      rw [he]
      exact ⟨hraise, w, evalT_litVal hw, hag⟩

theorem foldsWell_logical {t : Typ} {op : BinaryOp} {l r : TExpression} {pos : Bool}
    (hop : op.isLogical = true) (hl : FoldsWell true l) (hr : FoldsWell true r) :
    FoldsWell pos (.binaryExpression t l op r) := by
  intro σ M s v s' hv
  constructor
  · unfold foldRaises
    simp only [raisesVal_logical hop]
    grind
  · obtain ⟨a, s1, b, ha, hb, hrest⟩ := (evalT_logical hop).mp hv
    obtain ⟨-, a', ha', hag⟩ := hl σ M s a s1 ha
    refine ⟨v, evalT_evalLogical hop ((evalT_logical hop).mpr ⟨a', s1, b, ha', hag.truth hb, ?_⟩),
      Agree.refl pos v⟩
    split at hrest
    · rw [if_pos ‹_›]; exact hrest
    · obtain ⟨c, d, hc, hd, hvd⟩ := hrest
      obtain ⟨-, c', hc', hag⟩ := hr σ M s1 c s' hc
      rw [if_neg ‹_›]
      exact ⟨c', d, hc', hag.truth hd, hvd⟩

theorem foldsWell_prefix {t : Typ} {op : PrefixOp} {e : TExpression} {pos : Bool}
    (he : FoldsWell (decide (op = .not)) e) : FoldsWell pos (.prefixExpression t op e) := by
  intro σ M s v s' hv
  refine ⟨rfl, v, ?_, Agree.refl pos v⟩
  by_cases hop : op ≠ .preincrement ∧ op ≠ .predecrement
  · obtain ⟨x, hx, hxv⟩ := (evalT_prefixExpression hop).mp hv
    obtain ⟨-, x', hx', hag⟩ := he σ M s x s' hx
    exact evalT_evalPrefix hop hx' (prefixVal_agree hag hxv)
  · have hnone : evalPrefix op (constantEval e) = none := by
      cases op <;> simp_all [evalPrefix]
    show evalT M ((evalPrefix op (constantEval e)).getD _) s = _
    rw [hnone]
    obtain rfl | rfl : op = .preincrement ∨ op = .predecrement := by tauto
    all_goals
      simp only [evalT, Option.bind_eq_bind, Option.bind_eq_some_iff, Option.getD_none] at hv ⊢
      obtain ⟨r, hr, hrv⟩ := hv
      exact ⟨r, evalStep_fold hr, hrv⟩

/-- In well placed expressions, a node whose parts fold well folds well unless it is an inexact
    division. -/
theorem foldsWell_node {pos : Bool} {e : TExpression}
    (hplace : ∀ x, e = .booleanConversion x → pos = true)
    (hsub : ∀ q ∈ parts e, EveryPart FoldsWell q.1 q.2) (hx : inexactDivision pos e = false) :
    FoldsWell pos e := by
  cases e with
  | binaryExpression t l op r =>
    have hl := hsub (op.isLogical, l) (by simp [parts])
    have hr := hsub (op.isLogical, r) (by simp [parts])
    cases hop : op.isLogical with
    | false =>
      rw [hop] at hl hr
      exact foldsWell_arith hop hl hr hx
    | true =>
      rw [hop] at hl hr
      exact foldsWell_logical hop hl.here hr.here
  | prefixExpression t op e =>
    exact foldsWell_prefix (hsub (decide (op = .not), e) (by simp [parts])).here
  | globalStore t i e | localStore t i e =>
    intro σ M s v s' hv
    simp only [evalT, Option.bind_eq_bind, Option.bind_eq_some_iff, Prod.exists] at hv
    obtain ⟨x, s1, hx, hv⟩ := hv
    obtain ⟨-, _, hx', rfl⟩ := (hsub (false, e) (by simp [parts])).here σ M s x s1 hx
    cases hv
    exact ⟨rfl, _, by simp [constantEval, evalT, hx'], Agree.refl pos _⟩
  | methodCall t i args | syscall t i args =>
    intro σ M s v s' hv
    simp only [evalT, Option.bind_eq_bind, Option.bind_eq_some_iff, Prod.exists] at hv
    obtain ⟨vs, s1, hvs, hv⟩ := hv
    have hargs := evalArgs_fold args
      (fun e he => (hsub (false, e) (by simpa [parts] using he)).here) hvs
    exact ⟨rfl, v, by simp [constantEval, evalT, hargs, hv], Agree.refl pos v⟩
  | typeConversion t e =>
    intro σ M s v s' hv
    obtain ⟨x, hx, hxv⟩ := evalT_typeConversion.mp hv
    obtain ⟨-, _, hx', rfl⟩ := (hsub (false, e) (by simp [parts])).here σ M s x s' hx
    exact ⟨rfl, v, evalT_evalConversion hx' hxv, Agree.refl pos v⟩
  | booleanConversion e =>
    intro σ M s v s' hv
    obtain rfl := hplace e rfl
    obtain ⟨x, hx, hxv⟩ := evalT_booleanConversion.mp hv
    obtain ⟨-, _, hx', rfl⟩ := (hsub (false, e) (by simp [parts])).here σ M s x s' hx
    obtain ⟨v', hv', ht⟩ := evalT_evalBoolean hx' hxv
    exact ⟨rfl, v', hv', ht⟩
  | globalLoad | localLoad | postfixExpression | shortLiteral | byteLiteral =>
    intro σ M s v s' hv
    exact ⟨rfl, v, hv, Agree.refl pos v⟩

/-! ## All nodes -/

theorem inexactVal_has_value {pos : Bool} {op : BinaryOp} {a b : Val}
    (h : inexactVal pos op a b = true) : ∃ v, binaryVal op a b = some v := by
  cases a <;> cases b <;> simp only [inexactVal, reduceCtorEq] at h
  case byte.byte a b =>
    have hb : (op = .divide ∨ op = .mod) ∧ b ≠ 0 := by
      cases pos <;> cases op <;> simp_all [inexact, inexactTruth]
    rcases hb with ⟨rfl | rfl, hb⟩ <;> exact ⟨_, by simp only [binaryVal, vmArith, if_neg hb]; rfl⟩
  case short.short a b =>
    have hb : (op = .divide ∨ op = .mod) ∧ b ≠ 0 := by
      cases op <;> simp_all [inexact]
    rcases hb with ⟨rfl | rfl, hb⟩ <;> exact ⟨_, by simp only [binaryVal, vmArith, if_neg hb]; rfl⟩

/-- A node that folds well with all its parts is no inexact division. -/
theorem exact_of_foldsWell {pos : Bool} {e : TExpression} (hw : EveryPart FoldsWell pos e) :
    inexactDivision pos e = false := by
  refine Bool.eq_false_iff.mpr fun hx => ?_
  cases e <;> simp only [inexactDivision, reduceCtorEq] at hx
  case binaryExpression t l op r =>
  split at hx
  · rename_i a b ha hb
    obtain ⟨v, hv⟩ := inexactVal_has_value hx
    have hop := not_logical_of_binaryVal hv
    obtain ⟨ha0, hb0⟩ := binaryVal_not_void hv
    have hl := hw.sub (op.isLogical, l) (by simp [parts])
    have hr := hw.sub (op.isLogical, r) (by simp [parts])
    rw [hop] at hl hr
    obtain ⟨_, hla, rfl⟩ := constVal_folds l hl ha ha0
    obtain ⟨_, hlb, rfl⟩ := constVal_folds r hr hb hb0
    obtain ⟨e', w, he, hlit, hiff⟩ := evalBinary_arith hla hlb hv
    have hval : evalT bareMachine (.binaryExpression t l op r) ⟨(), []⟩ = some (v, ⟨(), []⟩) :=
      evalT_constVal _ _ ((constVal_binaryExpression hop).mpr ⟨_, _, ha, hb, hv⟩)
    have hraise := (hw.here Unit bareMachine _ _ _ hval).1
    have hag := (hw.here.lit (w := w) (by simp only [constantEval, he]; exact hlit) hval).2
    have hexact := (hiff pos).mp ⟨by simpa only [foldRaises, hla, hlb] using hraise, hag⟩
    rw [hexact] at hx
    cases hx
  · cases hx

/-- Constant folding is right on a well placed expression and all its parts exactly when none of
    these is an inexact division of constants. -/
theorem folds_well_iff (e : TExpression) : ∀ {pos : Bool}, WellPlaced pos e →
    (EveryPart FoldsWell pos e ↔ EveryPart (fun pos e => inexactDivision pos e = false) pos e) := by
  induction e using parts_induction with
  | step e ih =>
    intro pos hplace
    constructor
    · intro hw
      exact ⟨exact_of_foldsWell hw, fun q hq => (ih q hq (hplace.sub q hq)).mp (hw.sub q hq)⟩
    · intro hx
      have hsub := fun q hq => (ih q hq (hplace.sub q hq)).mpr (hx.sub q hq)
      exact ⟨foldsWell_node hplace.here hsub hx.here, hsub⟩

/-! ## What the type checker builds -/

theorem WellPlaced.of_parts {pos : Bool} {e : TExpression} (h : ∀ x, e ≠ .booleanConversion x)
    (hsub : ∀ q ∈ parts e, WellPlaced q.1 q.2) : WellPlaced pos e :=
  EveryPart.intro (fun x hx => absurd hx (h x)) hsub

theorem WellPlaced.cond {e : TExpression} (h : WellPlaced false e) : WellPlaced true e :=
  EveryPart.intro (fun _ _ => rfl) h.sub

theorem booleanConvertCheck_wellPlaced {e e' : TExpression} (he : WellPlaced false e)
    (h : booleanConvertCheck e = .ok e') : WellPlaced true e' := by
  simp only [booleanConvertCheck, valueTypeCheck, bind_eq_ok] at h
  obtain ⟨a, ha, h⟩ := h
  split at ha <;> cases ha
  cases h
  split
  · exact he.cond
  · refine EveryPart.intro (fun _ _ => rfl) fun q hq => ?_
    obtain rfl : q = (false, e) := by simpa [parts] using hq
    exact he

theorem valueTypeCheck_wellPlaced {e e' : TExpression} (he : WellPlaced false e)
    (h : valueTypeCheck e = .ok e') : WellPlaced false e' := by
  unfold valueTypeCheck at h
  split at h <;> cases h
  exact he

theorem typePromoteCheck_wellPlaced {t : Typ} {e e' : TExpression} (he : WellPlaced false e)
    (h : typePromoteCheck t e = .ok e') : WellPlaced false e' := by
  unfold typePromoteCheck at h
  split at h
  · cases h; exact he
  · split at h <;> cases h
    exact WellPlaced.of_parts (fun x => by simp) (by simpa [parts] using he)

theorem typeCastCheck_wellPlaced {t : Typ} {e e' : TExpression} (he : WellPlaced false e)
    (h : typeCastCheck t e = .ok e') : WellPlaced false e' := by
  unfold typeCastCheck at h
  split at h
  · cases h; exact he
  · repeat' split at h
    all_goals cases h
    all_goals exact WellPlaced.of_parts (fun x => by simp) (by simpa [parts] using he)

theorem orTry_eq_ok {α : Type} {x y : ThrowsError α} {r : α} (h : orTry x y = .ok r) :
    x = .ok r ∨ y = .ok r := by
  cases x with
  | ok a => exact .inl h
  | error e => exact .inr h

/-- What a name called with arguments stands for is a call. -/
theorem resolveInvocation_parts {st : BindingState} {nam : Ident}
    {constr : List TExpression → TExpression} {ts : List Typ}
    (h : resolveInvocation st nam = .ok (constr, ts)) (args : List TExpression) :
    (∀ x, constr args ≠ .booleanConversion x) ∧
      parts (constr args) = args.map fun e => (false, e) := by
  rcases orTry_eq_ok h with h | h
  all_goals
    simp only [bind_eq_ok] at h
    obtain ⟨a, -, h⟩ := h
    cases h
    exact ⟨fun x => by simp, rfl⟩

theorem promoteArgs_wellPlaced : ∀ (ts : List Typ) (es es' : List TExpression),
    (∀ e ∈ es, WellPlaced false e) →
      (ts.zip es).mapM (fun a => typePromoteCheck a.1 a.2) = .ok es' →
        ∀ e ∈ es', WellPlaced false e
  | [], _, es', _, h => by
    cases h
    simp
  | _ :: _, [], es', _, h => by
    cases h
    simp
  | t :: ts, e :: es, es', hes, h => by
    simp only [List.zip_cons_cons, List.mapM_cons, bind_eq_ok] at h
    obtain ⟨a, ha, as, has, h⟩ := h
    cases h
    have hrest := promoteArgs_wellPlaced ts es as (fun e he => hes e (by simp [he])) has
    simpa using ⟨typePromoteCheck_wellPlaced (hes e (by simp)) ha, hrest⟩

mutual

/-- The type checker puts boolean conversions into boolean positions only. -/
theorem buildTExpression_wellPlaced {st : BindingState} : ∀ (x : Expression) {e : TExpression},
    buildTExpression st x = .ok e → WellPlaced false e
  | .shortLiteral val, e, h => by
    cases h
    exact WellPlaced.of_parts (fun x => by simp) (by simp [parts])
  | .methodInvocation nam args, e, h => by
    simp only [buildTExpression, bind_eq_ok] at h
    obtain ⟨⟨constr, ts⟩, hc, -, -, tArgs, hargs, tArgs', hpro, h⟩ := h
    cases h
    obtain ⟨hroot, hparts⟩ := resolveInvocation_parts hc tArgs'
    refine WellPlaced.of_parts hroot ?_
    have := promoteArgs_wellPlaced ts tArgs tArgs' (buildTArgs_wellPlaced args hargs) hpro
    simpa [hparts] using this
  | .byteLiteral val, e, h => by
    cases h
    exact WellPlaced.of_parts (fun x => by simp) (by simp [parts])
  | .variableAccess nam, e, h => by
    rcases orTry_eq_ok h with h | h
    · obtain ⟨v, -, h⟩ := bind_eq_ok.mp h
      cases h
      exact WellPlaced.of_parts (fun x => by simp) (by simp [parts])
    · rcases orTry_eq_ok h with h | h
      · obtain ⟨v, -, h⟩ := bind_eq_ok.mp h
        cases h
        exact WellPlaced.of_parts (fun x => by simp) (by simp [parts])
      · cases h
  | .assignment lhs rhs, e, h => by
    cases lhs <;> simp only [buildTExpression, reduceCtorEq, bind_eq_ok, Prod.exists] at h
    obtain ⟨tStor, typ, hstor, a, ha, a', ha', h⟩ := h
    cases h
    have hpro := typePromoteCheck_wellPlaced (buildTExpression_wellPlaced rhs ha) ha'
    rcases orTry_eq_ok hstor with h | h
    · obtain ⟨v, -, h⟩ := bind_eq_ok.mp h
      cases h
      exact WellPlaced.of_parts (fun x => by simp) (by simpa [parts] using hpro)
    · rcases orTry_eq_ok h with h | h
      · obtain ⟨v, -, h⟩ := bind_eq_ok.mp h
        cases h
        exact WellPlaced.of_parts (fun x => by simp) (by simpa [parts] using hpro)
      · cases h
  | .typeCast t x, e, h => by
    obtain ⟨a, ha, h⟩ := bind_eq_ok.mp h
    exact typeCastCheck_wellPlaced (buildTExpression_wellPlaced x ha) h
  | .postfixExpression x op, e, h => by
    simp only [buildTExpression, bind_eq_ok] at h
    obtain ⟨-, -, a, ha, a', ha', h⟩ := h
    cases h
    have hval := valueTypeCheck_wellPlaced (buildTExpression_wellPlaced x ha) ha'
    exact WellPlaced.of_parts (fun x => by simp) (by simpa [parts] using hval)
  | .binaryExpression l op r, e, h => by
    simp only [buildTExpression, bind_eq_ok] at h
    obtain ⟨a, ha, h⟩ := h
    have hl := buildTExpression_wellPlaced l ha
    cases hop : op.isLogical with
    | true =>
      simp only [hop, if_true, bind_eq_ok] at h
      obtain ⟨a', ha', b, hb, b', hb', h⟩ := h
      cases h
      have hr := buildTExpression_wellPlaced r hb
      exact WellPlaced.of_parts (fun x => by simp) (by
        simpa [parts, hop] using
          ⟨booleanConvertCheck_wellPlaced hl ha', booleanConvertCheck_wellPlaced hr hb'⟩)
    | false =>
      rw [if_neg (by simp [hop])] at h
      simp only [bind_eq_ok] at h
      obtain ⟨a1, ha1, b, hb, b1, hb1, a', ha', b', hb', h⟩ := h
      cases h
      have hl := valueTypeCheck_wellPlaced hl ha1
      have hr := valueTypeCheck_wellPlaced (buildTExpression_wellPlaced r hb) hb1
      exact WellPlaced.of_parts (fun x => by simp) (by
        simpa [parts, hop] using
          ⟨typePromoteCheck_wellPlaced hl ha', typePromoteCheck_wellPlaced hr hb'⟩)
  | .prefixExpression op x, e, h => by
    by_cases hop : op = .not
    · subst hop
      simp only [buildTExpression, bind_eq_ok] at h
      obtain ⟨a, ha, a', ha', h⟩ := h
      cases h
      have hcond := booleanConvertCheck_wellPlaced (buildTExpression_wellPlaced x ha) ha'
      exact WellPlaced.of_parts (fun x => by simp) (by simpa [parts] using hcond)
    · by_cases hlit : op = .minus ∧ ((∃ s, x = .shortLiteral s) ∨ ∃ b, x = .byteLiteral b)
      · obtain ⟨rfl, ⟨s, rfl⟩ | ⟨b, rfl⟩⟩ := hlit
        all_goals
          cases h
          exact WellPlaced.of_parts (fun x => by simp) (by simp [parts])
      · rw [buildTExpression] at h
        rotate_left
        · exact hop
        · exact fun s hm hx => hlit ⟨hm, .inl ⟨s, hx⟩⟩
        · exact fun b hm hx => hlit ⟨hm, .inr ⟨b, hx⟩⟩
        have hrest : ∃ a a', buildTExpression st x = .ok a ∧ valueTypeCheck a = .ok a' ∧
            .ok (.prefixExpression (typeOf a') op a') = (.ok e : ThrowsError TExpression) := by
          split at h
          · simpa only [bind_eq_ok, exists_and_left, exists_const] using (bind_eq_ok.mp h).choose_spec.2
          · simpa only [bind_eq_ok, exists_and_left] using h
        obtain ⟨a, a', ha, ha', h⟩ := hrest
        cases h
        have hval := valueTypeCheck_wellPlaced (buildTExpression_wellPlaced x ha) ha'
        exact WellPlaced.of_parts (fun x => by simp) (by simpa [parts, hop] using hval)

theorem buildTArgs_wellPlaced {st : BindingState} : ∀ (xs : List Expression) {es : List TExpression},
    buildTArgs st xs = .ok es → ∀ e ∈ es, WellPlaced false e
  | [], es, h => by
    cases h
    simp
  | x :: xs, es, h => by
    simp only [buildTArgs, bind_eq_ok] at h
    obtain ⟨e, he, es', hes, h⟩ := h
    cases h
    simpa using ⟨buildTExpression_wellPlaced x he, buildTArgs_wellPlaced xs hes⟩

end

/-! ## The folder on typed expressions -/

/-- A state of the type checker without names. -/
def noNames : BindingState := ⟨[], [], [], [], [], [], .void, false⟩

end KeyboardFirmware.Compiler
