/-
  Expressions on the operand machine.

  `Plain` are the expressions that the code generator gets right: it leaves out writes to globals,
  shifts of a short and the comparisons with a literal zero whose sign may be lost, and of the system
  calls it has those that change a report.  The code of a plain expression, executed where a method
  shows an environment, leaves the value that `evalT` gives in that environment on the stack and shows
  the environment that `evalT` leaves (`Frame.agrees`).
-/
import KeyboardFirmware.Vm.Operands

namespace KeyboardFirmware.Vm

open Compiler

/-- The comparisons that come out right for all values. -/
def ComparesRight (op : BinaryOp) (t : Typ) (lhs rhs : TExpression) : Prop :=
  (isZero lhs && isZero rhs) = false ∧
    (op = .eq ∨ op = .ne ∨ (isZero lhs = false ∧ (isZero rhs = false ∨ t = .byte)))

/-- Expressions of a type that the code generator gets right. -/
inductive Plain (gVars lVars : VarAllocation) (sig : Signatures) : Typ → TExpression → Prop
  | byteLiteral (v : VByte) : Plain gVars lVars sig .byte (.byteLiteral v)
  | shortLiteral (v : VShort) : Plain gVars lVars sig .short (.shortLiteral v)
  | localLoad {t i slot} : lVars.lookup i = some (slot, t) → Plain gVars lVars sig t (.localLoad t i)
  | globalLoad {t i slot} : gVars.lookup i = some (slot, t) →
      Plain gVars lVars sig t (.globalLoad t i)
  | localStore {t i slot e} : lVars.lookup i = some (slot, t) → t ≠ .void →
      Plain gVars lVars sig t e → Plain gVars lVars sig t (.localStore t i e)
  | not {e} : Plain gVars lVars sig .byte e →
      Plain gVars lVars sig .byte (.prefixExpression .byte .not e)
  | complement {t e} : t ≠ .void → Plain gVars lVars sig t e →
      Plain gVars lVars sig t (.prefixExpression t .complement e)
  | minus {t e} : t ≠ .void → Plain gVars lVars sig t e →
      Plain gVars lVars sig t (.prefixExpression t .minus e)
  | prefixStep {t i slot op} : op.isStep = true → lVars.lookup i = some (slot, t) → t ≠ .void →
      Plain gVars lVars sig t (.prefixExpression t op (.localLoad t i))
  | postfixStep {t i slot op} : lVars.lookup i = some (slot, t) → t ≠ .void →
      Plain gVars lVars sig t (.postfixExpression t (.localLoad t i) op)
  | logical {lhs rhs op} : op.isLogical = true → Plain gVars lVars sig .byte lhs →
      Plain gVars lVars sig .byte rhs → Plain gVars lVars sig .byte (.binaryExpression .byte lhs op rhs)
  | arithmetic {t lhs rhs op aop} : opFor op = some aop → t ≠ .void →
      ¬ (t = .short ∧ isShift op = true) → Plain gVars lVars sig t lhs →
      Plain gVars lVars sig t rhs → Plain gVars lVars sig t (.binaryExpression t lhs op rhs)
  | comparison {t lhs rhs op} : op.isComparison = true → t ≠ .void → ComparesRight op t lhs rhs →
      Plain gVars lVars sig t lhs → Plain gVars lVars sig t rhs →
      Plain gVars lVars sig .byte (.binaryExpression .byte lhs op rhs)
  | toShort {e} : Plain gVars lVars sig .byte e → Plain gVars lVars sig .short (.typeConversion .short e)
  | toByte {e} : Plain gVars lVars sig .short e → Plain gVars lVars sig .byte (.typeConversion .byte e)
  | discard {t e} : Plain gVars lVars sig t e → Plain gVars lVars sig .void (.typeConversion .void e)
  | boolean {e} : Plain gVars lVars sig .short e → Plain gVars lVars sig .byte (.booleanConversion e)
  | syscall {op} {ts : List Typ} {args : List TExpression} : ts.length = args.length →
      (∀ x ∈ ts.zip args, Plain gVars lVars sig x.1 x.2) →
      Plain gVars lVars sig .void (.syscall .void op args)
  | methodCall {t i} {ts : List Typ} {args : List TExpression} : sig i = some (ts, t) → ts.length = args.length →
      (∀ x ∈ ts.zip args, Plain gVars lVars sig x.1 x.2) →
      Plain gVars lVars sig t (.methodCall t i args)

mutual

/-- The bytes that the code of an expression needs on the stack; `callRoom` says what a method needs
    above its arguments. -/
def exprRoom (callRoom : MethodID → Nat) : TExpression → Nat
  | .byteLiteral _ => 1
  | .shortLiteral _ => 2
  | .globalLoad t _ | .localLoad t _ => typeBytes t
  | .globalStore t _ e | .localStore t _ e => max (exprRoom callRoom e) (2 * typeBytes t)
  | .prefixExpression t .minus e => typeBytes t + exprRoom callRoom e
  | .prefixExpression t _ e => max (exprRoom callRoom e) (2 * typeBytes t)
  | .postfixExpression t _ _ => 3 * typeBytes t
  | .binaryExpression _ lhs _ rhs =>
    max (exprRoom callRoom lhs) (typeBytes (typeOf lhs) + exprRoom callRoom rhs)
  | .methodCall t i args => max (typeBytes t) (argsRoom callRoom (callRoom i) args)
  | .syscall _ _ args => argsRoom callRoom 0 args
  | .typeConversion t e => max (exprRoom callRoom e) (typeBytes t)
  | .booleanConversion e => exprRoom callRoom e

/-- The bytes that arguments need, with `k` above them. -/
def argsRoom (callRoom : MethodID → Nat) (k : Nat) : List TExpression → Nat
  | [] => k
  | e :: es => max (exprRoom callRoom e) (typeBytes (typeOf e) + argsRoom callRoom k es)

end

variable {gVars lVars : VarAllocation} {sig : Signatures} {callRoom : MethodID → Nat} {t : Typ}
  {e lhs rhs : TExpression}

theorem Plain.typeOf (h : Plain gVars lVars sig t e) : typeOf e = t := by
  cases h <;> rfl

theorem Plain.le_exprRoom (h : Plain gVars lVars sig t e) : typeBytes t ≤ exprRoom callRoom e := by
  induction h with
  | byteLiteral | shortLiteral | localLoad | globalLoad => exact Nat.le_refl _
  | localStore | postfixStep =>
    simp only [exprRoom]
    omega
  | not _ ih | complement _ _ ih => exact le_max_of_le_left ih
  | minus => exact Nat.le_add_right _ _
  | @prefixStep t i slot op hop =>
    cases op <;> cases hop <;> exact Nat.le_max_left _ _
  | logical _ _ _ ih => exact le_max_of_le_left ih
  | arithmetic _ _ _ _ _ ih => exact le_max_of_le_left ih
  | comparison _ ht _ _ _ ih => exact le_max_of_le_left ((typeBytes_pos ht).trans ih)
  | toShort | toByte | discard => exact Nat.le_max_right _ _
  | boolean _ ih => exact (Nat.le_succ 1).trans ih
  | syscall => exact Nat.zero_le _
  | methodCall => exact Nat.le_max_left _ _

/-! ## Agreement -/

variable {a b v : Val}

theorem binaryVal_step {op : BinaryOp} {up : Bool} (hop : op = if up then .add else .subtract) {u : Val}
    (hv : stepVal up v = some u) : binaryVal op v (numberVal v.typ 1) = some u := by
  subst hop
  cases v with
  | byte | short => cases up <;> exact hv
  | void => cases hv

theorem binaryVal_typ {op : BinaryOp} {aop : ArithOp} (hop : opFor op = some aop)
    (h : binaryVal op a b = some v) : v.typ = a.typ := by
  rcases binaryVal_arith hop h with ⟨x, y, z, rfl, -, rfl, -⟩ | ⟨x, y, z, rfl, -, rfl, -⟩ <;> rfl

namespace Frame

variable (F : Frame)

/-- The machine of the reference. -/
abbrev machine : Machine Env := envMachine F.call

abbrev Plain (t : Typ) (e : TExpression) : Prop := Vm.Plain F.gVars F.lVars F.sig t e

/-- The bytes that an expression needs. -/
abbrev need (e : TExpression) : Nat := exprRoom F.callRoom e

/-- `f` leaves the value of an expression on top, which has the type `t`. -/
def LeavesValue (t : Typ) (e : TExpression) (f : Option Operands → Option Operands) : Prop :=
  ∀ ⦃s s' : MState Env⦄ ⦃v : Val⦄ ⦃bs : List VByte⦄ ⦃w : Option Operands⦄,
    evalT F.machine e s = some (v, s') → F.Shows s.env bs w → F.Room (bs.length + F.need e) →
    v.typ = t ∧ F.Shows s'.env (bs ++ valBytes v) (f w)

/-- `f` leaves nothing of an expression but its effects. -/
def LeavesNothing (e : TExpression) (f : Option Operands → Option Operands) : Prop :=
  ∀ ⦃s s' : MState Env⦄ ⦃v : Val⦄ ⦃bs : List VByte⦄ ⦃w : Option Operands⦄,
    evalT F.machine e s = some (v, s') → F.Shows s.env bs w → F.Room (bs.length + F.need e) →
    F.Shows s'.env bs (f w)

/-- `c` decides as the value of an expression says. -/
def Decides (e : TExpression) (c : Option Operands → Bool × Option Operands) : Prop :=
  ∀ ⦃s s' : MState Env⦄ ⦃v : Val⦄ ⦃bs : List VByte⦄ ⦃w : Option Operands⦄,
    evalT F.machine e s = some (v, s') → F.Shows s.env bs w → F.Room (bs.length + F.need e) →
    ∀ b, v.truth = some b → (c w).1 = b ∧ F.Shows s'.env bs (c w).2

/-- The code of an expression of the type `t` does what the reference says. -/
structure Agrees (t : Typ) (e : TExpression) : Prop where
  value : F.LeavesValue t e (exprSem F.blocks e).value
  void : F.LeavesNothing e (exprSem F.blocks e).void
  cond : F.Decides e (exprSem F.blocks e).cond

variable {F} {t : Typ} {e lhs rhs : TExpression} {bs cs : List VByte} {env : Env} {w : Option Operands} {n : Nat}

theorem truth_ofBool (b : Bool) : (Val.ofBool b).truth = some b := by
  cases b <;> rfl

/-- An expression that is computed as a value. -/
theorem Agrees.ofValue (hle : typeBytes t ≤ F.need e) {f g : Option Operands → Option Operands}
    (hE : exprSem F.blocks e = .ofValue F.blocks f g) (hf : F.LeavesValue t e f)
    (hg : F.LeavesNothing e g) : F.Agrees t e := by
  refine ⟨?_, ?_, fun s s' v bs w hev hw hroom b htruth => ?_⟩
  · rw [hE]
    exact hf
  · rw [hE]
    exact hg
  · obtain ⟨rfl, hshows⟩ := hf hev hw hroom
    rw [hE]
    cases v with
    | byte x =>
      obtain rfl := Option.some.inj htruth
      have htest : (F.blocks.test .ifNe (f w)).1 = (x != 0) ∧ _ :=
        hshows.test (Room.append hroom hle) .ifNe
      exact htest
    | short | void => cases htruth

/-- An expression that is computed as a condition. -/
theorem Agrees.ofCond {c : Option Operands → Bool × Option Operands} {g : Option Operands → Option Operands}
    (hE : exprSem F.blocks e = .ofCond F.blocks c g) (hc : F.Decides e c)
    (hbool : ∀ {s s' v}, evalT F.machine e s = some (v, s') → ∃ b, v = .ofBool b)
    (hg : F.LeavesNothing e g) : F.Agrees .byte e := by
  refine ⟨fun s s' v bs w hev hw hroom => ?_, ?_, ?_⟩
  · obtain ⟨b, rfl⟩ := hbool hev
    obtain ⟨rfl, hshows⟩ := hc hev hw hroom b (truth_ofBool b)
    rw [hE]
    have hpush : F.Shows s'.env _ (F.blocks.exec (.bconst (if (c w).1 then 1 else 0)) (c w).2) :=
      hshows.bconst (Room.mono hroom (Nat.le_add_right ..)) _
    exact ⟨rfl, hpush⟩
  · rw [hE]
    exact hg
  · rw [hE]
    exact hc

/-! ### Operands -/

namespace Agrees

theorem byteLiteral (v : VByte) : F.Agrees .byte (.byteLiteral v) := by
  refine ⟨fun s s' u bs w hev hw hroom => ?_, fun s s' u bs w hev hw _ => ?_,
    fun s s' u bs w hev hw _ b htruth => ?_⟩
  · obtain ⟨rfl, rfl⟩ := Prod.mk.inj (Option.some.inj hev)
    exact ⟨rfl, hw.bconst (Room.mono hroom (Nat.le_add_right ..)) v⟩
  · obtain ⟨-, rfl⟩ := Prod.mk.inj (Option.some.inj hev)
    exact hw
  · obtain ⟨rfl, rfl⟩ := Prod.mk.inj (Option.some.inj hev)
    obtain rfl := Option.some.inj htruth
    refine ⟨?_, hw⟩
    show decide (v ≠ 0) = (v != 0)
    rw [bne, beq_eq_decide, decide_not]

theorem shortLiteral (v : VShort) : F.Agrees .short (.shortLiteral v) := by
  refine ⟨fun s s' u bs w hev hw hroom => ?_, fun s s' u bs w hev hw _ => ?_,
    fun s s' u bs w hev hw _ b htruth => ?_⟩
  · obtain ⟨rfl, rfl⟩ := Prod.mk.inj (Option.some.inj hev)
    exact ⟨rfl, hw.sconst (Room.mono hroom (Nat.le_add_right ..)) v⟩
  · obtain ⟨-, rfl⟩ := Prod.mk.inj (Option.some.inj hev)
    exact hw
  · obtain ⟨rfl, -⟩ := Prod.mk.inj (Option.some.inj hev)
    cases htruth

theorem localLoad {i : VariableID} {slot : Nat} (hslot : F.lVars.lookup i = some (slot, t)) :
    F.Agrees t (.localLoad t i) := by
  refine .ofValue (Nat.le_refl _) rfl (fun s s' v bs w hev hw hroom => ?_)
    fun s s' v bs w hev hw _ => ?_
  · obtain ⟨rfl, rfl⟩ := Prod.mk.inj (Option.some.inj hev)
    exact hw.load (Room.mono hroom (Nat.le_add_right ..)) hslot
  · obtain ⟨-, rfl⟩ := Prod.mk.inj (Option.some.inj hev)
    exact hw

theorem globalLoad {i : VariableID} {slot : Nat} (hslot : F.gVars.lookup i = some (slot, t)) :
    F.Agrees t (.globalLoad t i) := by
  refine .ofValue (Nat.le_refl _) rfl (fun s s' v bs w hev hw hroom => ?_)
    fun s s' v bs w hev hw _ => ?_
  · obtain ⟨rfl, rfl⟩ := Prod.mk.inj (Option.some.inj hev)
    exact hw.gload (Room.mono hroom (Nat.le_add_right ..)) hslot
  · obtain ⟨-, rfl⟩ := Prod.mk.inj (Option.some.inj hev)
    exact hw

theorem evalT_localStore {M : Machine Env} {i : VariableID} {s s' : MState Env} {v : Val} :
    evalT M (.localStore t i e) s = some (v, s') ↔
      ∃ s1, evalT M e s = some (v, s1) ∧ s' = s1.write M (.local i) v := by
  simp only [evalT, Option.bind_eq_bind, Option.bind_eq_some_iff, Prod.exists]
  constructor
  · rintro ⟨u, s1, he, hs⟩
    obtain ⟨rfl, rfl⟩ := Prod.mk.inj (Option.some.inj hs)
    exact ⟨s1, he, rfl⟩
  · rintro ⟨s1, he, rfl⟩
    exact ⟨v, s1, he, rfl⟩

theorem localStore {i : VariableID} {slot : Nat} (h : F.Agrees t e)
    (hslot : F.lVars.lookup i = some (slot, t)) (ht : t ≠ .void) : F.Agrees t (.localStore t i e) := by
  have hle : F.need (.localStore t i e) = max (F.need e) (2 * typeBytes t) := by
    simp only [need, exprRoom]
  refine .ofValue ?_ rfl (fun s s' v bs w hev hw hroom => ?_) fun s s' v bs w hev hw hroom => ?_
  · rw [hle]
    omega
  · obtain ⟨s1, he, rfl⟩ := evalT_localStore.mp hev
    rw [hle] at hroom
    obtain ⟨rfl, hshows⟩ := h.value he hw (Room.mono hroom (by omega))
    have hdup := hshows.dup (Room.append hroom (by rw [length_valBytes]; omega)) ht
    exact ⟨rfl, hdup.store (Room.mono hroom (by
      simp only [List.length_append, length_valBytes]
      omega)) hslot⟩
  · obtain ⟨s1, he, rfl⟩ := evalT_localStore.mp hev
    rw [hle] at hroom
    obtain ⟨rfl, hshows⟩ := h.value he hw (Room.mono hroom (by omega))
    exact hshows.store (Room.append hroom (by rw [length_valBytes]; omega)) hslot

/-! ### Prefix and postfix operators -/

theorem not (h : F.Agrees .byte e) : F.Agrees .byte (.prefixExpression .byte .not e) := by
  have hle : F.need e ≤ F.need (.prefixExpression .byte .not e) := Nat.le_max_left _ _
  have hdecides : ∀ {s s' : MState Env} {v : Val} {bs : List VByte} {w : Option Operands},
      evalT F.machine (.prefixExpression .byte .not e) s = some (v, s') → F.Shows s.env bs w →
      F.Room (bs.length + F.need (.prefixExpression .byte .not e)) →
      v = .ofBool (!((exprSem F.blocks e).cond w).1) ∧
        F.Shows s'.env bs ((exprSem F.blocks e).cond w).2 := by
    intro s s' v bs w hev hw hroom
    obtain ⟨a, ha, hv⟩ := (evalT_prefixExpression ⟨by decide, by decide⟩).mp hev
    cases a with
    | byte x =>
      obtain ⟨hcond, hshows⟩ := h.cond ha hw (Room.mono hroom (Nat.add_le_add_left hle _)) _ rfl
      refine ⟨?_, hshows⟩
      obtain rfl := Option.some.inj hv
      rw [hcond, bne, Bool.not_not]
    | short | void => cases hv
  refine .ofCond rfl (fun s s' v bs w hev hw hroom b htruth => ?_) (fun hev => ?_)
    fun s s' v bs w hev hw hroom => (hdecides hev hw hroom).2
  · obtain ⟨rfl, hshows⟩ := hdecides hev hw hroom
    exact ⟨Option.some.inj ((truth_ofBool _).symm.trans htruth), hshows⟩
  · obtain ⟨a, -, hv⟩ := (evalT_prefixExpression ⟨by decide, by decide⟩).mp hev
    cases a with
    | byte x => exact ⟨_, (Option.some.inj hv).symm⟩
    | short | void => cases hv

theorem complement (h : F.Agrees t e) (ht : t ≠ .void) (hle : typeBytes t ≤ F.need e) :
    F.Agrees t (.prefixExpression t .complement e) := by
  have hle' : F.need e ≤ F.need (.prefixExpression t .complement e) := Nat.le_max_left _ _
  refine .ofValue (hle.trans hle') rfl (fun s s' v bs w hev hw hroom => ?_)
    fun s s' v bs w hev hw hroom => ?_
  · obtain ⟨a, ha, hv⟩ := (evalT_prefixExpression ⟨by decide, by decide⟩).mp hev
    have hroom' := Room.mono hroom (Nat.add_le_add_left hle' _)
    obtain ⟨rfl, hshows⟩ := h.value ha hw hroom'
    exact hshows.complement (Room.append hroom' (by rwa [length_valBytes])) hv
  · obtain ⟨a, ha, -⟩ := (evalT_prefixExpression ⟨by decide, by decide⟩).mp hev
    exact h.void ha hw (Room.mono hroom (Nat.add_le_add_left hle' _))

/-- A negation is a subtraction from zero. -/
theorem minus (h : F.Agrees t e) (ht : t ≠ .void) (hle : typeBytes t ≤ F.need e) :
    F.Agrees t (.prefixExpression t .minus e) := by
  have hsum : F.need (.prefixExpression t .minus e) = typeBytes t + F.need e := by
    simp only [need, exprRoom]
  refine .ofValue ?_ rfl (fun s s' v bs w hev hw hroom => ?_) fun s s' v bs w hev hw hroom => ?_
  · rw [hsum]
    exact Nat.le_add_right _ _
  · obtain ⟨a, ha, hv⟩ := (evalT_prefixExpression ⟨by decide, by decide⟩).mp hev
    rw [hsum] at hroom
    have hzero := hw.const (Room.mono hroom (Nat.le_add_right ..)) ht 0
    have hlen : (valBytes (numberVal t 0)).length = typeBytes t := by
      rw [length_valBytes, numberVal_typ]
    obtain ⟨hat, hshows⟩ := h.value ha hzero (Room.mono hroom (by
      rw [List.length_append, hlen]
      omega))
    have hsub : binaryVal .subtract (numberVal t 0) a = some v := by
      subst hat
      cases a <;> exact hv
    have hvt : v.typ = t := (binaryVal_typ rfl hsub).trans (numberVal_typ t 0)
    rw [List.append_assoc] at hshows
    have harith := hshows.arith rfl (Room.append hroom (by
      rw [List.length_append, hlen, length_valBytes, hat]
      omega)) (by rw [numberVal_typ]; exact fun h => by cases h.2) hsub
    rw [numberVal_typ] at harith
    exact ⟨hvt, harith⟩
  · obtain ⟨a, ha, -⟩ := (evalT_prefixExpression ⟨by decide, by decide⟩).mp hev
    rw [hsum] at hroom
    exact h.void ha hw (Room.mono hroom (by omega))

theorem evalStep_local {i : VariableID} {up : Bool} {s s' : MState Env} {v u : Val}
    (h : evalStep F.machine up (.localLoad t i) s = some (v, u, s')) :
    v = s.env.vars (.local i) ∧ stepVal up v = some u ∧ s'.env = s.env.write (.local i) u := by
  obtain ⟨x, hx, h⟩ := Option.bind_eq_some_iff.mp h
  obtain ⟨rfl, hrest⟩ := Prod.mk.inj (Option.some.inj h)
  obtain ⟨rfl, rfl⟩ := Prod.mk.inj hrest
  exact ⟨rfl, hx, rfl⟩

/-- The value on top is changed by one. -/
theorem change {v u : Val} {up : Bool} {aop : ArithOp} {bs : List VByte}
    (haop : opFor (if up then .add else .subtract) = some aop) (ht : v.typ ≠ .void)
    (hval : stepVal up v = some u) {env : Env} {w : Option Operands}
    (hroom : F.Room (bs.length + 2 * typeBytes v.typ)) (hw : F.Shows env (bs ++ valBytes v) w) :
    u.typ = v.typ ∧ F.Shows env (bs ++ valBytes u)
      (F.blocks.exec (.arith v.typ aop) (F.blocks.exec (irConst v.typ 1) w)) := by
  have hbinary := binaryVal_step rfl hval
  have hone := hw.const (Room.append hroom (by rw [length_valBytes]; omega)) ht 1
  rw [List.append_assoc] at hone
  refine ⟨binaryVal_typ haop hbinary, hone.arith haop (Room.append hroom ?_) ?_ hbinary⟩
  · rw [List.length_append, length_valBytes, length_valBytes, numberVal_typ]
    omega
  · rintro ⟨-, hshift⟩
    cases up <;> cases hshift

/-- `++x` and `--x`. -/
theorem prefixStep {i : VariableID} {slot : Nat} {op : PrefixOp} (up : Bool)
    (hop : op = if up then .preincrement else .predecrement)
    (hslot : F.lVars.lookup i = some (slot, t)) (ht : t ≠ .void) :
    F.Agrees t (.prefixExpression t op (.localLoad t i)) := by
  have hmax : F.need (.prefixExpression t op (.localLoad t i)) = max (typeBytes t) (2 * typeBytes t) := by
    subst hop
    cases up <;> rfl
  have heval : ∀ {s s' : MState Env} {u : Val},
      evalT F.machine (.prefixExpression t op (.localLoad t i)) s = some (u, s') →
      ∃ v, v = s.env.vars (.local i) ∧ stepVal up v = some u ∧ s'.env = s.env.write (.local i) u := by
    intro s s' u hev
    have hstep : ∃ v, evalStep F.machine up (.localLoad t i) s = some (v, u, s') := by
      subst hop
      cases up <;> simpa [evalT, Option.bind_eq_some_iff] using hev
    obtain ⟨v, hv⟩ := hstep
    exact ⟨v, evalStep_local hv⟩
  have hinstr : ∃ aop, opFor (if up then .add else .subtract) = some aop ∧
      mkPrefixInstr t op = .arith t aop := by
    subst hop
    cases up <;> exact ⟨_, rfl, rfl⟩
  obtain ⟨aop, haop, hinstr⟩ := hinstr
  have hE : exprSem F.blocks (.prefixExpression t op (.localLoad t i)) = .ofValue F.blocks
      (stepSem F.blocks (.load i) (.store i) (.arith t aop) t [] [.dup t])
      (stepSem F.blocks (.load i) (.store i) (.arith t aop) t [] []) := by
    rw [← hinstr]
    subst hop
    cases up <;> rfl
  refine .ofValue ?_ hE (fun s s' u bs w hev hw hroom => ?_) fun s s' u bs w hev hw hroom => ?_
  · rw [hmax]
    exact Nat.le_max_left _ _
  · rw [hmax] at hroom
    obtain ⟨v, rfl, hval, henv⟩ := heval hev
    obtain ⟨rfl, hload⟩ := hw.load (Room.mono hroom (Nat.le_add_right ..)) hslot
    obtain ⟨hut, hchanged⟩ := change haop ht hval (Room.mono hroom (by omega)) hload
    rw [← hut] at ht hslot
    have hdup := hchanged.dup (Room.append hroom (by
      rw [length_valBytes, hut]
      omega)) ht
    have hstore := hdup.store (Room.mono hroom (by
      simp only [List.length_append, length_valBytes, hut]
      omega)) hslot
    rw [henv]
    refine ⟨hut, ?_⟩
    rw [← hut] at hstore ⊢
    exact hstore
  · rw [hmax] at hroom
    obtain ⟨v, rfl, hval, henv⟩ := heval hev
    obtain ⟨rfl, hload⟩ := hw.load (Room.mono hroom (Nat.le_add_right ..)) hslot
    obtain ⟨hut, hchanged⟩ := change haop ht hval (Room.mono hroom (by omega)) hload
    rw [← hut] at hslot
    rw [henv]
    exact hchanged.store (Room.append hroom (by
      rw [length_valBytes, hut]
      omega)) hslot

/-- `x++` and `x--`. -/
theorem postfixStep {i : VariableID} {slot : Nat} (op : PostfixOp)
    (hslot : F.lVars.lookup i = some (slot, t)) (ht : t ≠ .void) :
    F.Agrees t (.postfixExpression t (.localLoad t i) op) := by
  have hroom_eq : F.need (.postfixExpression t (.localLoad t i) op) = 3 * typeBytes t := rfl
  have heval : ∀ {s s' : MState Env} {v : Val},
      evalT F.machine (.postfixExpression t (.localLoad t i) op) s = some (v, s') →
      ∃ u, v = s.env.vars (.local i) ∧ stepVal (op = .postincrement) v = some u ∧
        s'.env = s.env.write (.local i) u := by
    intro s s' v hev
    obtain ⟨⟨v', u, s1⟩, hstep, hv⟩ := Option.bind_eq_some_iff.mp hev
    obtain ⟨rfl, rfl⟩ := Prod.mk.inj (Option.some.inj hv)
    exact ⟨u, evalStep_local hstep⟩
  have hinstr : ∃ aop, opFor (if decide (op = .postincrement) then .add else .subtract) = some aop ∧
      mkPostfixInstr t op = .arith t aop := by
    cases op <;> exact ⟨_, rfl, rfl⟩
  obtain ⟨aop, haop, hinstr⟩ := hinstr
  have hE : exprSem F.blocks (.postfixExpression t (.localLoad t i) op) = .ofValue F.blocks
      (stepSem F.blocks (.load i) (.store i) (.arith t aop) t [.dup t] [])
      (stepSem F.blocks (.load i) (.store i) (.arith t aop) t [] []) := by
    rw [← hinstr]
    rfl
  refine .ofValue ?_ hE (fun s s' v bs w hev hw hroom => ?_) fun s s' v bs w hev hw hroom => ?_
  · rw [hroom_eq]
    omega
  · rw [hroom_eq] at hroom
    obtain ⟨u, rfl, hval, henv⟩ := heval hev
    obtain ⟨rfl, hload⟩ := hw.load (Room.mono hroom (Nat.le_add_right ..)) hslot
    have hdup := hload.dup (Room.append hroom (by
      rw [length_valBytes]
      omega)) ht
    obtain ⟨hut, hchanged⟩ := change haop ht hval (Room.mono hroom (by
      rw [List.length_append, length_valBytes]
      omega)) hdup
    rw [← hut] at hslot
    rw [henv]
    exact ⟨rfl, hchanged.store (Room.mono hroom (by
      simp only [List.length_append, length_valBytes, hut]
      omega)) hslot⟩
  · rw [hroom_eq] at hroom
    obtain ⟨u, rfl, hval, henv⟩ := heval hev
    obtain ⟨rfl, hload⟩ := hw.load (Room.mono hroom (Nat.le_add_right ..)) hslot
    obtain ⟨hut, hchanged⟩ := change haop ht hval (Room.mono hroom (by omega)) hload
    rw [← hut] at hslot
    rw [henv]
    exact hchanged.store (Room.append hroom (by
      rw [length_valBytes, hut]
      omega)) hslot

/-! ### Binary operators -/

/-- `&&` and `||`: the right operand is left out when the left one decides. -/
theorem logical {op : BinaryOp} (hop : op.isLogical = true) (hl : F.Agrees .byte lhs)
    (hr : F.Agrees .byte rhs) : F.Agrees .byte (.binaryExpression .byte lhs op rhs) := by
  have hle : F.need (.binaryExpression .byte lhs op rhs) =
      max (F.need lhs) (typeBytes (typeOf lhs) + F.need rhs) := by
    simp only [need, exprRoom]
  obtain ⟨c, hE, hc⟩ : ∃ c, exprSem F.blocks (.binaryExpression .byte lhs op rhs) =
      .ofCond F.blocks c (fun w => (c w).2) ∧
      ∀ w, c w = if ((exprSem F.blocks lhs).cond w).1 = decide (op = .disj)
        then (exprSem F.blocks lhs).cond w
        else (exprSem F.blocks rhs).cond ((exprSem F.blocks lhs).cond w).2 := by
    cases op <;> cases hop
    · refine ⟨condConjSem (exprSem F.blocks lhs).cond (exprSem F.blocks rhs).cond, rfl, fun w => ?_⟩
      obtain ⟨b, w', hw⟩ : ∃ b w', (exprSem F.blocks lhs).cond w = (b, w') := ⟨_, _, rfl⟩
      rw [condConjSem, hw]
      cases b <;> rfl
    · refine ⟨condDisjSem (exprSem F.blocks lhs).cond (exprSem F.blocks rhs).cond, rfl, fun w => ?_⟩
      obtain ⟨b, w', hw⟩ : ∃ b w', (exprSem F.blocks lhs).cond w = (b, w') := ⟨_, _, rfl⟩
      rw [condDisjSem, hw]
      cases b <;> rfl
  have hdecides : F.Decides (.binaryExpression .byte lhs op rhs) c := by
    intro s s' v bs w hev hw hroom b htruth
    rw [hle] at hroom
    obtain ⟨x, s1, d, hx, hd, hrest⟩ := (evalT_logical hop).mp hev
    obtain ⟨hcond, hshows⟩ := hl.cond hx hw (Room.mono hroom (by omega)) d hd
    rw [hc, hcond]
    split at hrest
    · next hdecided =>
      obtain ⟨rfl, rfl⟩ := hrest
      rw [if_pos hdecided, hcond]
      exact ⟨Option.some.inj ((truth_ofBool d).symm.trans htruth), hshows⟩
    · next hopen =>
      obtain ⟨y, d', hy, hd', rfl⟩ := hrest
      rw [if_neg hopen]
      have hb := Option.some.inj ((truth_ofBool d').symm.trans htruth)
      exact hr.cond hy hshows (Room.mono hroom (by omega)) b (hb ▸ hd')
  have hbool : ∀ {s s' : MState Env} {v : Val},
      evalT F.machine (.binaryExpression .byte lhs op rhs) s = some (v, s') → ∃ b, v = .ofBool b := by
    intro s s' v hev
    obtain ⟨x, s1, d, -, -, hrest⟩ := (evalT_logical hop).mp hev
    split at hrest
    · exact ⟨d, hrest.1⟩
    · obtain ⟨y, d', -, -, hv⟩ := hrest
      exact ⟨d', hv⟩
  refine .ofCond hE hdecides hbool fun s s' v bs w hev hw hroom => ?_
  obtain ⟨b, rfl⟩ := hbool hev
  exact (hdecides hev hw hroom b (truth_ofBool b)).2

/-- An operator on two operands. -/
theorem arithmetic {op : BinaryOp} {aop : ArithOp} (hop : opFor op = some aop) (ht : t ≠ .void)
    (hshift : ¬ (t = .short ∧ isShift op = true)) (hl : F.Agrees t lhs) (hr : F.Agrees t rhs)
    (hlhs : typeOf lhs = t) (hsl : typeBytes t ≤ F.need lhs) (hsr : typeBytes t ≤ F.need rhs) :
    F.Agrees t (.binaryExpression t lhs op rhs) := by
  have hle : F.need (.binaryExpression t lhs op rhs) =
      max (F.need lhs) (typeBytes t + F.need rhs) := by
    simp only [need, exprRoom, hlhs]
  have hlogical : op.isLogical = false := by
    cases op <;> cases hop <;> rfl
  have hE : exprSem F.blocks (.binaryExpression t lhs op rhs) = .ofValue F.blocks
      (fun w => F.blocks.exec (.arith t aop)
        ((exprSem F.blocks rhs).value ((exprSem F.blocks lhs).value w)))
      (fun w => (exprSem F.blocks rhs).void ((exprSem F.blocks lhs).void w)) := by
    cases op <;> cases hop <;> rfl
  refine .ofValue ?_ hE (fun s s' v bs w hev hw hroom => ?_) fun s s' v bs w hev hw hroom => ?_
  · rw [hle]
    omega
  · rw [hle] at hroom
    obtain ⟨a, s1, b, ha, hb, hv⟩ := (evalT_binaryExpression hlogical).mp hev
    obtain ⟨rfl, hshowsl⟩ := hl.value ha hw (Room.mono hroom (by omega))
    obtain ⟨hbt, hshowsr⟩ := hr.value hb hshowsl (Room.mono hroom (by
      rw [List.length_append, length_valBytes]
      omega))
    rw [List.append_assoc] at hshowsr
    refine ⟨binaryVal_typ hop hv, hshowsr.arith hop (Room.append hroom ?_) hshift hv⟩
    rw [List.length_append, length_valBytes, length_valBytes, hbt]
    omega
  · rw [hle] at hroom
    obtain ⟨a, s1, b, ha, hb, -⟩ := (evalT_binaryExpression hlogical).mp hev
    exact hr.void hb (hl.void ha hw (Room.mono hroom (by omega))) (Room.mono hroom (by omega))

/-! ### Comparisons -/

theorem binaryVal_comparison {op : BinaryOp} (hop : op.isComparison = true) {a b v : Val}
    (h : binaryVal op a b = some v) : b.typ = a.typ ∧ v = .ofBool (relates op (valInt a) (valInt b)) := by
  have hnone : ∀ {n : Nat} (x y : BitVec n), vmArith op x y = none := fun x y => by
    cases op <;> cases hop <;> rfl
  have hcompare : ∀ {n : Nat} (x y : BitVec n),
      vmCompare op x y = some (relates op x.toInt y.toInt) := fun x y => by
    rw [vmCompare, if_pos hop, vmIfCheck_cmp_relates hop]
  cases a with
  | byte x =>
    cases b with
    | byte y =>
      rw [binaryVal, hnone, hcompare] at h
      exact ⟨rfl, (Option.some.inj h).symm⟩
    | short | void => cases h
  | short x =>
    cases b with
    | short y =>
      rw [binaryVal, hnone, hcompare] at h
      exact ⟨rfl, (Option.some.inj h).symm⟩
    | byte | void => cases h
  | void => cases h

/-- A literal zero. -/
theorem evalT_isZero (hz : isZero e = true) {s s' : MState Env} {v : Val}
    (h : evalT F.machine e s = some (v, s')) : valInt v = 0 ∧ s' = s := by
  cases e with
  | byteLiteral x | shortLiteral x =>
    obtain ⟨rfl, rfl⟩ := Prod.mk.inj (Option.some.inj h)
    obtain rfl := of_decide_eq_true hz
    exact ⟨rfl, rfl⟩
  | _ => cases hz

/-- The operands of a comparison leave the byte that is tested. -/
theorem tested (op : BinaryOp) (ht : t ≠ .void) (hboth : (isZero lhs && isZero rhs) = false)
    (hl : F.Agrees t lhs) (hr : F.Agrees t rhs) (hsl : typeBytes t ≤ F.need lhs)
    (hsr : typeBytes t ≤ F.need rhs) {s s1 s' : MState Env} {a b : Val} {bs : List VByte} {w : Option Operands}
    (ha : evalT F.machine lhs s = some (a, s1)) (hb : evalT F.machine rhs s1 = some (b, s'))
    (hw : F.Shows s.env bs w)
    (hroom : F.Room (bs.length + max (F.need lhs) (typeBytes t + F.need rhs))) :
    ∃ w', condComparisonSem F.blocks t t op (isZero lhs) (isZero rhs) (exprSem F.blocks lhs).value
        (exprSem F.blocks rhs).value w =
          F.blocks.test (conditionFor (if isZero lhs then flipOp op else op)) w' ∧
      F.Shows s'.env (bs ++ [testedByte (isZero lhs) (isZero rhs) a b]) w' := by
  cases hzl : isZero lhs with
  | true =>
    have hzr : isZero rhs = false := by rwa [hzl, Bool.true_and] at hboth
    obtain ⟨-, rfl⟩ := evalT_isZero hzl ha
    have hroom' : F.Room (bs.length + F.need rhs) := Room.mono hroom (by omega)
    obtain ⟨rfl, hshows⟩ := hr.value hb hw hroom'
    rw [hzr]
    exact ⟨_, rfl, hshows.booleanCast (Room.append hroom' (by rwa [length_valBytes])) ht⟩
  | false =>
    have hroom' : F.Room (bs.length + F.need lhs) := Room.mono hroom (by omega)
    obtain ⟨rfl, hshows⟩ := hl.value ha hw hroom'
    cases hzr : isZero rhs with
    | true =>
      obtain ⟨-, rfl⟩ := evalT_isZero hzr hb
      exact ⟨_, rfl, hshows.booleanCast
        (Room.append hroom' (by rwa [length_valBytes])) ht⟩
    | false =>
      obtain ⟨hbt, hshows'⟩ := hr.value hb hshows (Room.mono hroom (by
        rw [List.length_append, length_valBytes]
        omega))
      rw [List.append_assoc] at hshows'
      refine ⟨_, rfl, hshows'.cmp (Room.append hroom ?_) rfl hbt ht⟩
      rw [List.length_append, length_valBytes, length_valBytes, hbt]
      omega

theorem comparison {op : BinaryOp} (hop : op.isComparison = true) (ht : t ≠ .void)
    (hright : ComparesRight op t lhs rhs) (hl : F.Agrees t lhs) (hr : F.Agrees t rhs)
    (hlhs : typeOf lhs = t) (hrhs : typeOf rhs = t) (hsl : typeBytes t ≤ F.need lhs)
    (hsr : typeBytes t ≤ F.need rhs) : F.Agrees .byte (.binaryExpression .byte lhs op rhs) := by
  obtain ⟨hboth, hright⟩ := hright
  have hle : F.need (.binaryExpression .byte lhs op rhs) =
      max (F.need lhs) (typeBytes t + F.need rhs) := by
    simp only [need, exprRoom, hlhs]
  have hlogical : op.isLogical = false := by
    cases op <;> cases hop <;> rfl
  have hE : exprSem F.blocks (.binaryExpression .byte lhs op rhs) = .ofCond F.blocks
      (condComparisonSem F.blocks t t op (isZero lhs) (isZero rhs) (exprSem F.blocks lhs).value
        (exprSem F.blocks rhs).value)
      (fun w => (exprSem F.blocks rhs).void ((exprSem F.blocks lhs).void w)) := by
    have hE : exprSem F.blocks (.binaryExpression .byte lhs op rhs) = .ofCond F.blocks
        (condComparisonSem F.blocks (typeOf lhs) (typeOf rhs) op (isZero lhs) (isZero rhs)
          (exprSem F.blocks lhs).value (exprSem F.blocks rhs).value)
        (fun w => (exprSem F.blocks rhs).void ((exprSem F.blocks lhs).void w)) := by
      cases op <;> cases hop <;> rfl
    rwa [hlhs, hrhs] at hE
  refine .ofCond hE (fun s s' v bs w hev hw hroom r htruth => ?_) (fun hev => ?_)
    fun s s' v bs w hev hw hroom => ?_
  · rw [hle] at hroom
    obtain ⟨a, s1, b, ha, hb, hv⟩ := (evalT_binaryExpression hlogical).mp hev
    obtain ⟨hbt, rfl⟩ := binaryVal_comparison hop hv
    obtain ⟨w', hc, hshows⟩ := tested op ht hboth hl hr hsl hsr ha hb hw hroom
    obtain ⟨hat, -⟩ := hl.value ha hw (Room.mono hroom (by omega))
    obtain ⟨htest, hshows'⟩ := hshows.test
      (Room.append hroom (by
        have hpos := typeBytes_pos ht
        rw [List.length_singleton]
        omega)) (conditionFor (if isZero lhs then flipOp op else op))
    have hlena : (valBytes a).length = typeBytes t := by rw [length_valBytes, hat]
    have hlenb : (valBytes b).length = typeBytes t := by rw [length_valBytes, hbt, hat]
    have hwell : ComparesWell op (isZero lhs) (isZero rhs) a b := by
      rcases hright with heq | hne | ⟨hzl, hzr⟩
      · exact .inl heq
      · exact .inr (.inl hne)
      · cases hz : isZero rhs with
        | false => exact .inr (.inr (.inl ⟨hzl, rfl⟩))
        | true =>
          rw [hz] at hzr
          obtain rfl := hzr.resolve_left (by decide)
          refine .inr (.inr (.inr (.inl ⟨rfl, ?_⟩)))
          cases a with
          | byte => rfl
          | short | void => cases hat
    have hright := (testedByte_iff hop hboth ht hlena hlenb (fun hz => (evalT_isZero hz ha).1)
      fun hz => (evalT_isZero hz hb).1).mpr hwell
    rw [hc]
    exact ⟨(htest.trans hright).trans (Option.some.inj ((truth_ofBool _).symm.trans htruth)), hshows'⟩
  · obtain ⟨a, s1, b, -, -, hv⟩ := (evalT_binaryExpression hlogical).mp hev
    exact ⟨_, (binaryVal_comparison hop hv).2⟩
  · rw [hle] at hroom
    obtain ⟨a, s1, b, ha, hb, -⟩ := (evalT_binaryExpression hlogical).mp hev
    exact hr.void hb (hl.void ha hw (Room.mono hroom (by omega))) (Room.mono hroom (by omega))

/-! ### Conversions -/

theorem toShort (h : F.Agrees .byte e) (hle : 1 ≤ F.need e) :
    F.Agrees .short (.typeConversion .short e) := by
  have hmax : F.need e ≤ F.need (.typeConversion .short e) := Nat.le_max_left _ _
  refine .ofValue (Nat.le_max_right _ _) rfl (fun s s' v bs w hev hw hroom => ?_)
    fun s s' v bs w hev hw hroom => ?_
  · obtain ⟨a, ha, hv⟩ := evalT_typeConversion.mp hev
    have hroom' : F.Room (bs.length + F.need e) := Room.mono hroom (by omega)
    obtain ⟨hat, hshows⟩ := h.value ha hw hroom'
    exact hshows.b2s (Room.append hroom' (by rw [length_valBytes, hat]; exact hle)) hat hv
  · obtain ⟨a, ha, -⟩ := evalT_typeConversion.mp hev
    exact h.void ha hw (Room.mono hroom (by omega))

theorem toByte (h : F.Agrees .short e) (hle : 2 ≤ F.need e) :
    F.Agrees .byte (.typeConversion .byte e) := by
  have hmax : F.need e ≤ F.need (.typeConversion .byte e) := Nat.le_max_left _ _
  refine .ofValue (Nat.le_max_right _ _) rfl (fun s s' v bs w hev hw hroom => ?_)
    fun s s' v bs w hev hw hroom => ?_
  · obtain ⟨a, ha, hv⟩ := evalT_typeConversion.mp hev
    have hroom' : F.Room (bs.length + F.need e) := Room.mono hroom (by omega)
    obtain ⟨hat, hshows⟩ := h.value ha hw hroom'
    exact hshows.s2b (Room.append hroom' (by rw [length_valBytes, hat]; exact hle)) hat hv
  · obtain ⟨a, ha, -⟩ := evalT_typeConversion.mp hev
    exact h.void ha hw (Room.mono hroom (by omega))

theorem discard (h : F.Agrees t e) : F.Agrees .void (.typeConversion .void e) := by
  have hmax : F.need e ≤ F.need (.typeConversion .void e) := Nat.le_max_left _ _
  have hvoid : F.LeavesNothing (.typeConversion .void e) (exprSem F.blocks e).void := by
    intro s s' v bs w hev hw hroom
    obtain ⟨a, ha, -⟩ := evalT_typeConversion.mp hev
    exact h.void ha hw (Room.mono hroom (by omega))
  refine .ofValue (Nat.zero_le _) rfl (fun s s' v bs w hev hw hroom => ?_) hvoid
  obtain ⟨a, ha, hv⟩ := evalT_typeConversion.mp hev
  have hnothing : v = .void := by
    cases a <;> exact (Option.some.inj hv).symm
  subst hnothing
  rw [valBytes, List.append_nil]
  exact ⟨rfl, hvoid hev hw hroom⟩

theorem boolean (h : F.Agrees .short e) (he : typeOf e = .short) (hle : 2 ≤ F.need e) :
    F.Agrees .byte (.booleanConversion e) := by
  have hsame : F.need (.booleanConversion e) = F.need e := by simp only [need, exprRoom]
  have hE : exprSem F.blocks (.booleanConversion e) = .ofValue F.blocks
      (fun w => booleanCastSem F.blocks .short ((exprSem F.blocks e).value w))
      (exprSem F.blocks e).void := by
    rw [exprSem, he]
  refine .ofValue ?_ hE (fun s s' v bs w hev hw hroom => ?_) fun s s' v bs w hev hw hroom => ?_
  · rw [hsame]
    exact (Nat.le_succ 1).trans hle
  · obtain ⟨a, ha, hv⟩ := evalT_booleanConversion.mp hev
    rw [hsame] at hroom
    obtain ⟨hat, hshows⟩ := h.value ha hw hroom
    have hcast := hshows.booleanCast
      (Room.append hroom (by rw [length_valBytes, hat]; exact hle)) (by rw [hat]; decide)
    cases a with
    | short x =>
      obtain rfl := Option.some.inj hv
      exact ⟨rfl, hcast⟩
    | byte | void => cases hat
  · obtain ⟨a, ha, -⟩ := evalT_booleanConversion.mp hev
    rw [hsame] at hroom
    exact h.void ha hw hroom

/-! ### Calls -/

theorem evalArgs_cons {M : Machine Env} {es : List TExpression} {s s' : MState Env} {vs : List Val} :
    evalArgs M (e :: es) s = some (vs, s') ↔ ∃ v s1 vs', evalT M e s = some (v, s1) ∧
      evalArgs M es s1 = some (vs', s') ∧ vs = v :: vs' := by
  simp only [evalArgs, Option.bind_eq_bind, Option.bind_eq_some_iff, Prod.exists]
  constructor
  · rintro ⟨v, s1, hv, vs', s2, hvs, h⟩
    obtain ⟨rfl, rfl⟩ := Prod.mk.inj (Option.some.inj h)
    exact ⟨v, s1, vs', hv, hvs, rfl⟩
  · rintro ⟨v, s1, vs', hv, hvs, rfl⟩
    exact ⟨v, s1, hv, vs', s', hvs, rfl⟩

/-- Arguments are pushed from left to right. -/
theorem args {ts : List Typ} {es : List TExpression} (hlen : ts.length = es.length)
    (h : ∀ x ∈ ts.zip es, F.Agrees x.1 x.2 ∧ typeOf x.2 = x.1) {k : Nat} {s s' : MState Env}
    {vs : List Val} {bs : List VByte} {w : Option Operands}
    (hev : evalArgs F.machine es s = some (vs, s')) (hw : F.Shows s.env bs w)
    (hroom : F.Room (bs.length + argsRoom F.callRoom k es)) : vs.map Val.typ = ts ∧
      F.Shows s'.env (bs ++ vs.flatMap valBytes) (argsSem F.blocks es w) ∧
      F.Room ((bs ++ vs.flatMap valBytes).length + k) := by
  induction es generalizing ts s vs bs w with
  | nil =>
    obtain ⟨rfl, rfl⟩ := Prod.mk.inj (Option.some.inj hev)
    obtain rfl := List.eq_nil_of_length_eq_zero hlen
    rw [List.flatMap_nil, List.append_nil]
    exact ⟨rfl, hw, hroom⟩
  | cons e es ih =>
    cases ts with
    | nil => cases hlen
    | cons t ts =>
      rw [List.zip_cons_cons, List.forall_mem_cons] at h
      obtain ⟨⟨he, htype⟩, hes⟩ := h
      dsimp only at he htype
      obtain ⟨v, s1, vs', hv, hvs, rfl⟩ := evalArgs_cons.mp hev
      simp only [argsRoom] at hroom
      obtain ⟨hvt, hshows⟩ := he.value hv hw (Room.mono hroom (by
        show _ + exprRoom F.callRoom e ≤ _
        omega))
      obtain ⟨hts, hshows', hroom'⟩ := ih (Nat.succ.inj hlen) hes hvs hshows (Room.mono hroom (by
        rw [List.length_append, length_valBytes, hvt, htype]
        omega))
      rw [List.append_assoc] at hshows' hroom'
      exact ⟨by rw [List.map_cons, hvt, hts], hshows', hroom'⟩

theorem syscall {op : SyscallOp} {ts : List Typ} {es : List TExpression} (hlen : ts.length = es.length)
    (h : ∀ x ∈ ts.zip es, F.Agrees x.1 x.2 ∧ typeOf x.2 = x.1) :
    F.Agrees .void (.syscall .void op es) := by
  have hroom_eq : F.need (.syscall .void op es) = argsRoom F.callRoom 0 es := by
    simp only [need, exprRoom]
  have heval : ∀ {s s' : MState Env} {v : Val} {bs : List VByte} {w : Option Operands},
      evalT F.machine (.syscall .void op es) s = some (v, s') → F.Shows s.env bs w →
      F.Room (bs.length + F.need (.syscall .void op es)) → v = .void ∧
        F.Shows s'.env bs (F.blocks.exec (.syscall op) (argsSem F.blocks es w)) := by
    intro s s' v bs w hev hw hroom
    rw [hroom_eq] at hroom
    obtain ⟨⟨vs, s1⟩, hvs, hcall⟩ := Option.bind_eq_some_iff.mp hev
    obtain ⟨⟨u, env⟩, hsys, hres⟩ := Option.map_eq_some_iff.mp hcall
    obtain ⟨rfl, rfl⟩ := Prod.mk.inj hres
    obtain ⟨-, hshows, hroom'⟩ := args hlen h hvs hw hroom
    exact hshows.syscall hroom' hsys
  refine .ofValue (Nat.zero_le _) rfl (fun s s' v bs w hev hw hroom => ?_)
    fun s s' v bs w hev hw hroom => (heval hev hw hroom).2
  obtain ⟨rfl, hshows⟩ := heval hev hw hroom
  rw [valBytes, List.append_nil]
  exact ⟨rfl, hshows⟩

theorem methodCall {i : MethodID} {ts : List Typ} {es : List TExpression}
    (hsig : F.sig i = some (ts, t)) (hlen : ts.length = es.length)
    (h : ∀ x ∈ ts.zip es, F.Agrees x.1 x.2 ∧ typeOf x.2 = x.1) : F.Agrees t (.methodCall t i es) := by
  have hmax : F.need (.methodCall t i es) = max (typeBytes t) (argsRoom F.callRoom (F.callRoom i) es) := by
    simp only [need, exprRoom]
  have hvalue : F.LeavesValue t (.methodCall t i es)
      fun w => F.blocks.exec (.call i) (argsSem F.blocks es w) := by
    intro s s' v bs w hev hw hroom
    rw [hmax] at hroom
    obtain ⟨⟨vs, s1⟩, hvs, hcall⟩ := Option.bind_eq_some_iff.mp hev
    obtain ⟨⟨u, env⟩, hres, hs⟩ := Option.map_eq_some_iff.mp hcall
    obtain ⟨rfl, rfl⟩ := Prod.mk.inj hs
    have hargs : F.Room (bs.length + argsRoom F.callRoom (F.callRoom i) es) :=
      Room.mono hroom (by omega)
    obtain ⟨hts, hshows, hroom'⟩ := args hlen h hvs hw hargs
    exact hshows.call hsig hts hres hroom'
  refine .ofValue ?_ rfl hvalue fun s s' v bs w hev hw hroom => ?_
  · rw [hmax]
    exact Nat.le_max_left _ _
  · obtain ⟨rfl, hshows⟩ := hvalue hev hw hroom
    rw [hmax] at hroom
    have hroom' : F.Room (bs ++ valBytes v).length := Room.append hroom (by
      rw [length_valBytes]
      omega)
    cases v with
    | void =>
      rw [valBytes, List.append_nil] at hshows
      exact hshows
    | byte | short => exact hshows.pop hroom' (by simp [Val.typ])

end Agrees

/-- **Plain expressions** do on the machine what the reference says. -/
theorem agrees (F : Frame) (h : F.Plain t e) : F.Agrees t e := by
  induction h with
  | byteLiteral v => exact .byteLiteral v
  | shortLiteral v => exact .shortLiteral v
  | localLoad hslot => exact .localLoad hslot
  | globalLoad hslot => exact .globalLoad hslot
  | localStore hslot ht _ ih => exact ih.localStore hslot ht
  | not _ ih => exact ih.not
  | complement ht he ih => exact ih.complement ht he.le_exprRoom
  | minus ht he ih => exact ih.minus ht he.le_exprRoom
  | @prefixStep t i slot op hop hslot ht =>
    cases op with
    | preincrement => exact .prefixStep true rfl hslot ht
    | predecrement => exact .prefixStep false rfl hslot ht
    | not | complement | minus => cases hop
  | postfixStep hslot ht => exact .postfixStep _ hslot ht
  | logical hop _ _ ihl ihr => exact .logical hop ihl ihr
  | arithmetic hop ht hshift hl hr ihl ihr =>
    exact .arithmetic hop ht hshift ihl ihr hl.typeOf hl.le_exprRoom hr.le_exprRoom
  | comparison hop ht hright hl hr ihl ihr =>
    exact .comparison hop ht hright ihl ihr hl.typeOf hr.typeOf hl.le_exprRoom hr.le_exprRoom
  | toShort he ih => exact ih.toShort he.le_exprRoom
  | toByte he ih => exact ih.toByte he.le_exprRoom
  | discard _ ih => exact ih.discard
  | boolean he ih => exact ih.boolean he.typeOf he.le_exprRoom
  | syscall hlen hes ih => exact .syscall hlen fun x hx => ⟨ih x hx, (hes x hx).typeOf⟩
  | methodCall hsig hlen hes ih => exact .methodCall hsig hlen fun x hx => ⟨ih x hx, (hes x hx).typeOf⟩

end Frame

end KeyboardFirmware.Vm
