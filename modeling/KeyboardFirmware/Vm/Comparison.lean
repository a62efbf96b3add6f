/-
  Comparisons on the machine.

  A comparison of two operands is one of three ways, and the test that follows asks for its sign.  Next
  to a literal zero nothing is compared: the operand itself is tested, a short as the union of its two
  bytes, and for a zero on the left `flipOp` negates the relation instead of turning it round.
  `relates_union` and `relates_flipOp` say for which operands the outcome is right.
-/
import KeyboardFirmware.Vm.Arithmetic
import KeyboardFirmware.Vm.Loaded
import KeyboardFirmware.Compiler.GraphRun
import KeyboardFirmware.Compiler.Typing

namespace KeyboardFirmware.Vm

open Compiler

/-! ## Relations -/

/-- The number that a value is. -/
def valInt : Val → Int
  | .byte v => v.toInt
  | .short v => v.toInt
  | .void => 0

/-- A relational operator on numbers. -/
def relates : BinaryOp → Int → Int → Bool
  | .eq, a, b => decide (a = b)
  | .ne, a, b => decide (a ≠ b)
  | .lt, a, b => decide (a < b)
  | .le, a, b => decide (a ≤ b)
  | .gt, a, b => decide (b < a)
  | .ge, a, b => decide (b ≤ a)
  | _, _, _ => false

variable {op : BinaryOp}

theorem beq_toInt {n : Nat} (a b : BitVec n) : (a == b) = decide (a.toInt = b.toInt) := by
  rw [Bool.eq_iff_iff, beq_iff_eq, decide_eq_true_iff, BitVec.toInt_inj]

/-- The test of a byte is its relation to zero. -/
theorem vmIfCheck_relates (hop : op.isComparison = true) (x : VByte) :
    vmIfCheck (conditionFor op) x = relates op x.toInt 0 := by
  have hzero : (0 : VByte).toInt = 0 := rfl
  have heq : (x == 0) = decide (x.toInt = 0) := by rw [beq_toInt, hzero]
  have hne : (x != 0) = decide (x.toInt ≠ 0) := by rw [bne, heq, decide_not]
  cases op <;> cases hop
  case eq => exact heq
  case ne => exact hne
  all_goals simp [vmIfCheck, conditionFor, relates, BitVec.slt_eq_decide, BitVec.sle_eq_decide]

/-- The test after a comparison is the relation of the operands. -/
theorem vmIfCheck_cmp_relates {n : Nat} (hop : op.isComparison = true) (a b : BitVec n) :
    vmIfCheck (conditionFor op) (vmCmp a b) = relates op a.toInt b.toInt := by
  obtain ⟨hgt, hge, hlt, hle, heq, hne⟩ := vmIfCheck_vmCmp a b
  cases op <;> cases hop
  case eq => exact heq.trans (beq_toInt a b)
  case ne => exact hne.trans (by rw [bne, beq_toInt, relates, decide_not])
  all_goals
    simp [conditionFor, relates, hgt, hge, hlt, hle, BitVec.slt_eq_decide, BitVec.sle_eq_decide]

/-- A number that is zero together with `v` relates to zero as `v` does, unless its sign matters and is
    another one. -/
theorem relates_union (hop : op.isComparison = true) {u v : Int} (hzero : u = 0 ↔ v = 0) :
    relates op u 0 = relates op v 0 ↔ op = .eq ∨ op = .ne ∨ (u < 0 ↔ v < 0) := by
  cases op <;> cases hop <;> simp [relates] <;> omega

/-- The negated relation is right for a zero on the left only where the other operand is not zero. -/
theorem relates_flipOp (hop : op.isComparison = true) {u v : Int} (hzero : u = 0 ↔ v = 0) :
    relates (flipOp op) u 0 = relates op 0 v ↔
      op = .eq ∨ op = .ne ∨ (v ≠ 0 ∧ (u < 0 ↔ v < 0)) := by
  cases op <;> cases hop <;> simp [relates, flipOp] <;> omega

theorem flipOp_isComparison (hop : op.isComparison = true) : (flipOp op).isComparison = true := by
  cases op <;> cases hop <;> rfl

/-! ## The byte that is tested -/

/-- What is tested of an operand next to a zero. -/
def zeroTest : Val → VByte
  | .byte v => v
  | .short v => lowByte v ||| highByte v
  | .void => 0

/-- The comparison of two operands. -/
def cmpVal : Val → Val → VByte
  | .byte a, .byte b => vmCmp a b
  | .short a, .short b => vmCmp a b
  | _, _ => 0

/-- The byte that is tested; `zLhs` and `zRhs` say which operand is a literal zero. -/
def testedByte (zLhs zRhs : Bool) (a b : Val) : VByte :=
  if zLhs then zeroTest b else if zRhs then zeroTest a else cmpVal a b

/-- A short that is not negative, but whose lower byte is negative as a byte. -/
def signLost : Val → Bool
  | .short v => decide (0 ≤ v.toInt ∧ (lowByte v).toInt < 0)
  | _ => false

theorem highByte_neg (v : VShort) : (highByte v).toInt < 0 ↔ v.toInt < 0 := by
  have hmsb : (highByte v).msb = v.msb := by
    rw [BitVec.msb_eq_decide, BitVec.msb_eq_decide, decide_eq_decide, highByte, BitVec.toNat_ofNat]
    have := v.isLt
    omega
  rw [BitVec.msb_eq_toInt, BitVec.msb_eq_toInt, decide_eq_decide] at hmsb
  exact hmsb

theorem union_neg (v : VShort) :
    (lowByte v ||| highByte v).toInt < 0 ↔ (lowByte v).toInt < 0 ∨ v.toInt < 0 := by
  have hmsb : (lowByte v ||| highByte v).msb = ((lowByte v).msb || (highByte v).msb) := BitVec.msb_or
  rw [BitVec.msb_eq_toInt, BitVec.msb_eq_toInt, BitVec.msb_eq_toInt, ← Bool.decide_or,
    decide_eq_decide, highByte_neg] at hmsb
  exact hmsb

/-- The union of the bytes is zero where the value is. -/
theorem zeroTest_zero (v : Val) : (zeroTest v).toInt = 0 ↔ valInt v = 0 := by
  cases v with
  | byte | void => rfl
  | short v =>
    have hbeq := Bool.not_inj (union_bne_zero v)
    rw [beq_toInt, beq_toInt, decide_eq_decide] at hbeq
    exact hbeq

/-- It has the sign of the value, unless the lower byte brings one in. -/
theorem zeroTest_neg (v : Val) : ((zeroTest v).toInt < 0 ↔ valInt v < 0) ↔ signLost v = false := by
  cases v with
  | byte | void => exact iff_of_true Iff.rfl rfl
  | short v =>
    show ((lowByte v ||| highByte v).toInt < 0 ↔ v.toInt < 0) ↔ _
    rw [union_neg, signLost, decide_eq_false_iff_not, not_and', Int.not_le]
    constructor
    · intro h hlow
      exact h.mp (.inl hlow)
    · intro h
      exact ⟨fun hor => hor.elim h id, .inr⟩

/-- When a comparison with these operands comes out right. -/
def ComparesWell (op : BinaryOp) (zLhs zRhs : Bool) (a b : Val) : Prop :=
  op = .eq ∨ op = .ne ∨ (zLhs = false ∧ zRhs = false) ∨ (zRhs = true ∧ signLost a = false) ∨
    (zLhs = true ∧ valInt b ≠ 0 ∧ signLost b = false)

/-- **The outcome of a comparison.** -/
theorem testedByte_iff (hop : op.isComparison = true) {zLhs zRhs : Bool}
    (hboth : (zLhs && zRhs) = false) {t : Typ} (ht : t ≠ .void) {a b : Val}
    (ha : (valBytes a).length = typeBytes t) (hb : (valBytes b).length = typeBytes t) (hzl : zLhs = true → valInt a = 0)
    (hzr : zRhs = true → valInt b = 0) :
    vmIfCheck (conditionFor (if zLhs then flipOp op else op)) (testedByte zLhs zRhs a b) =
      relates op (valInt a) (valInt b) ↔ ComparesWell op zLhs zRhs a b := by
  cases zLhs with
  | true =>
    cases zRhs with
    | true => exact (nomatch hboth)
    | false =>
      rw [hzl rfl]
      show vmIfCheck (conditionFor (flipOp op)) (zeroTest b) = _ ↔ _
      rw [vmIfCheck_relates (flipOp_isComparison hop), relates_flipOp hop (zeroTest_zero b), zeroTest_neg]
      simp [ComparesWell]
  | false =>
    cases zRhs with
    | true =>
      rw [hzr rfl]
      show vmIfCheck (conditionFor op) (zeroTest a) = _ ↔ _
      rw [vmIfCheck_relates hop, relates_union hop (zeroTest_zero a), zeroTest_neg]
      simp [ComparesWell]
    | false =>
      refine iff_of_true ?_ (.inr (.inr (.inl ⟨rfl, rfl⟩)))
      show vmIfCheck (conditionFor op) (cmpVal a b) = _
      cases a with
      | byte x =>
        cases b with
        | byte y => exact vmIfCheck_cmp_relates hop x y
        | short | void => exact (nomatch ha.trans hb.symm)
      | short x =>
        cases b with
        | short y => exact vmIfCheck_cmp_relates hop x y
        | byte | void => exact (nomatch ha.trans hb.symm)
      | void =>
        have hpos := typeBytes_pos ht
        rw [← ha] at hpos
        exact absurd hpos (Nat.not_succ_le_zero 0)

/-! ## Where a comparison stands -/

section Places

variable (G : IRGraph IRInstruction)

/-- The code of two operands; a literal zero has none. -/
def operandsIn (zLhs zRhs : Bool) (lhs rhs : PosRel) : PosRel :=
  andThen (if zLhs then stay else lhs) (if zRhs then stay else rhs)

/-- The code that makes of them the byte that is tested. -/
def testedIn (t : Typ) (zLhs zRhs : Bool) : PosRel :=
  if zLhs || zRhs then booleanCastIn G t else InstrsAt G [.arith t .cmp]

end Places

variable {G : IRGraph IRInstruction} {t : Typ} {zLhs zRhs : Bool} {V W : PosRel} {p : Pos}
  {ifId elseId : Nat}

/-- The operands come first, then the byte that is tested, then the test. -/
theorem condComparisonIn_split (h : condComparisonIn G t t op zLhs zRhs V W p ifId elseId) :
    (zLhs && zRhs) = false ∧ ∃ r₀ r, operandsIn zLhs zRhs V W p r₀ ∧ testedIn G t zLhs zRhs r₀ r ∧
      EndsAt G r [(.conditional (conditionFor (if zLhs then flipOp op else op)), ifId),
        (.default, elseId)] := by
  obtain ⟨hboth, r, ⟨r2, ⟨r1, hV, hW⟩, hcmp⟩, hends⟩ := h
  refine ⟨hboth, ?_⟩
  cases zLhs with
  | true =>
    cases zRhs with
    | true => exact (nomatch hboth)
    | false =>
      obtain ⟨r₀, hW, hcast⟩ := hW
      obtain rfl : r = r2 := hcmp
      exact ⟨r₀, r, ⟨r1, hV, hW⟩, hcast, hends⟩
  | false =>
    cases zRhs with
    | true =>
      obtain ⟨r₀, hV, hcast⟩ := hV
      obtain rfl : r2 = r1 := hW
      obtain rfl : r = r2 := hcmp
      exact ⟨r₀, r, ⟨r₀, hV, rfl⟩, hcast, hends⟩
    | false => exact ⟨r2, r, ⟨r1, hV, hW⟩, hcmp, hends⟩

/-- It is computed in the block where the operands end. -/
theorem testedIn_block {r₀ r : Pos} (h : testedIn G t zLhs zRhs r₀ r) : r.1 = r₀.1 := by
  unfold testedIn at h
  split at h
  · cases t with
    | void => exact h.elim
    | byte =>
      obtain rfl : r = r₀ := h
      rfl
    | short =>
      obtain ⟨rfl, -⟩ := h
      rfl
  · obtain ⟨rfl, -⟩ := h
    rfl

/-! ## What the machine does -/

/-- The bytes of the operands on the stack. -/
def operandBytes (zLhs zRhs : Bool) (a b : Val) : List VByte :=
  (if zLhs then [] else valBytes a) ++ (if zRhs then [] else valBytes b)

variable {vm₀ vm : Vmstate} {bottom : Nat} {a b : Val}

theorem OnStack.or {x y : VByte} (h : OnStack vm₀ bottom [x, y] vm) :
    OnStack vm₀ bottom [x ||| y] (vm.arith .or .byte) := by
  have hy : OnStack vm₀ bottom ([x] ++ [y]) vm := h
  have hx : OnStack vm₀ bottom ([] ++ [x]) (vm.drop 1) := hy.drop rfl
  have hpush := (hx.drop rfl).pushByte (x ||| y)
  show OnStack vm₀ bottom _ (((vm.drop 1).drop 1).pushByte ((vm.drop 1).topByte ||| vm.topByte))
  rwa [hx.topByte, hy.topByte]

/-- The comparison of two operands on the stack. -/
theorem OnStack.cmp (ha : (valBytes a).length = typeBytes t) (hb : (valBytes b).length = typeBytes t)
    (ht : t ≠ .void) (h : OnStack vm₀ bottom (valBytes a ++ valBytes b) vm) :
    OnStack vm₀ bottom [cmpVal a b] (vm.arith .cmp t) := by
  have hdrop : OnStack vm₀ bottom ([] ++ valBytes a) (vm.drop (typeBytes t)) := h.drop hb
  have hpush := (hdrop.drop ha).pushByte (cmpVal a b)
  cases t with
  | void => exact absurd rfl ht
  | byte =>
    cases a with
    | short | void => exact (nomatch ha)
    | byte x =>
      cases b with
      | short | void => exact (nomatch hb)
      | byte y =>
        have hx : (vm.drop 1).topByte = x := hdrop.topByte
        show OnStack vm₀ bottom _ (((vm.drop 1).drop 1).pushByte (vmCmp (vm.drop 1).topByte vm.topByte))
        rwa [hx, h.topByte]
  | short =>
    cases a with
    | byte | void => exact (nomatch ha)
    | short x =>
      cases b with
      | byte | void => exact (nomatch hb)
      | short y =>
        have hx : (vm.drop 2).topShort = x := hdrop.topShort_bytes
        show OnStack vm₀ bottom _ (((vm.drop 2).drop 2).pushByte (vmCmp (vm.drop 2).topShort vm.topShort))
        rwa [hx, h.topShort_bytes]

section Runs

variable {m : TMethod} {irm : IRMethod} {gVars lVars : VarAllocation} {g : IRGraph Bytecode}
  {s : Storage} {base : Nat} {r r₀ : Pos}

/-- One instruction of a method runs. -/
theorem Loaded.instrAt (hl : Loaded m irm gVars lVars g s base) {i : IRInstruction}
    (hi : Straight i = true) (hp : irm.graph.Reachable p.1) (hin : InstrsAt irm.graph [i] p r)
    (hr : vm.Ready) (hip : vm.ip = addr gVars lVars irm.graph g base p) :
    ∃ n, RunsThrough s n vm ((effect gVars lVars i vm).advance n) ∧
      vm.ip + n = addr gVars lVars irm.graph g base r := by
  obtain ⟨code, hcode, hat, haddr⟩ := hl.instrsAt hp hin
  obtain ⟨c1, c2, h1, h2, rfl⟩ := instrsCode_cons.mp hcode
  obtain rfl := Except.ok.inj h2
  rw [List.append_nil, ← hip] at hat haddr
  exact ⟨c1.length, instr_runs hi h1 hr hat, haddr.symm⟩

/-- The byte that is tested is computed. -/
theorem tested_runs (hl : Loaded m irm gVars lVars g s base) (hp : irm.graph.Reachable r₀.1)
    (hboth : (zLhs && zRhs) = false) (ht : t ≠ .void) (ha : (valBytes a).length = typeBytes t)
    (hb : (valBytes b).length = typeBytes t) (hin : testedIn irm.graph t zLhs zRhs r₀ r) (hr : vm.Ready)
    (hip : vm.ip = addr gVars lVars irm.graph g base r₀)
    (h : OnStack vm₀ bottom (operandBytes zLhs zRhs a b) vm) :
    ∃ n vm', RunsThrough s n vm vm' ∧ vm'.ip = addr gVars lVars irm.graph g base r ∧
      OnStack vm₀ bottom [testedByte zLhs zRhs a b] vm' := by
  -- next to a zero, the operand that is left
  have hcast : ∀ {v : Val}, (valBytes v).length = typeBytes t → booleanCastIn irm.graph t r₀ r →
      OnStack vm₀ bottom (valBytes v) vm → ∃ n vm', RunsThrough s n vm vm' ∧
        vm'.ip = addr gVars lVars irm.graph g base r ∧ OnStack vm₀ bottom [zeroTest v] vm' := by
    intro v hv hin h
    cases t with
    | void => exact absurd rfl ht
    | byte =>
      cases v with
      | short | void => exact (nomatch hv)
      | byte v =>
        obtain rfl : r = r₀ := hin
        exact ⟨0, vm, .refl vm, hip, h⟩
    | short =>
      cases v with
      | byte | void => exact (nomatch hv)
      | short v =>
        obtain ⟨n, hrun, haddr⟩ := hl.instrAt rfl hp hin hr hip
        exact ⟨n, _, hrun, hrun.2.trans haddr, h.or.advance n⟩
  cases zLhs with
  | true =>
    cases zRhs with
    | true => exact (nomatch hboth)
    | false => exact hcast hb hin h
  | false =>
    cases zRhs with
    | true =>
      have h' : OnStack vm₀ bottom (valBytes a ++ []) vm := h
      rw [List.append_nil] at h'
      exact hcast ha hin h'
    | false =>
      have hin' : InstrsAt irm.graph [.arith t .cmp] r₀ r := hin
      obtain ⟨n, hrun, haddr⟩ := hl.instrAt rfl hp hin' hr hip
      exact ⟨n, _, hrun, hrun.2.trans haddr, (h.cmp ha hb ht).advance n⟩

/-- The machine has computed the operands of a comparison: it stands behind their code, and has
    their values `a` and `b` on its stack. -/
structure AtOperands (irm : IRMethod) (gVars lVars : VarAllocation) (g : IRGraph Bytecode)
    (base : Nat) (t : Typ) (lhs rhs : TExpression) (r : Pos) (a b : Val) (bottom : Nat)
    (vm : Vmstate) : Prop where
  ready : vm.Ready
  ip : vm.ip = addr gVars lVars irm.graph g base r
  stack : OnStack vm bottom (operandBytes (isZero lhs) (isZero rhs) a b) vm
  lhsType : (valBytes a).length = typeBytes t
  rhsType : (valBytes b).length = typeBytes t
  lhsZero : isZero lhs = true → valInt a = 0
  rhsZero : isZero rhs = true → valInt b = 0

variable {lhs rhs : TExpression} {u : Typ} {q : Pos}

theorem reachable_of_operandsIn (hp : G.Reachable p.1)
    (h : operandsIn zLhs zRhs (exprIn G lhs).value (exprIn G rhs).value p r) : G.Reachable r.1 := by
  have hoperand : ∀ {z : Bool} {e : TExpression} {p q : Pos}, G.Reachable p.1 →
      (if z then stay else (exprIn G e).value) p q → G.Reachable q.1 := by
    intro z e p q hp hin
    cases z with
    | true =>
      obtain rfl : q = p := hin
      exact hp
    | false => exact exprIn_reachable hin hp
  obtain ⟨r', hlhs, hrhs⟩ := h
  exact hoperand (hoperand hp hlhs) hrhs

theorem length_operandBytes_pos (hboth : (zLhs && zRhs) = false) (ht : t ≠ .void)
    (ha : (valBytes a).length = typeBytes t) (hb : (valBytes b).length = typeBytes t) :
    0 < (operandBytes zLhs zRhs a b).length := by
  have hpos := typeBytes_pos ht
  rw [operandBytes, List.length_append]
  cases zLhs with
  | false =>
    show 0 < (valBytes a).length + _
    omega
  | true =>
    cases zRhs with
    | true => exact (nomatch hboth)
    | false =>
      show 0 < 0 + (valBytes b).length
      omega

/-- Behind its operands a comparison hands over to one of its targets, with the operands gone. -/
theorem comparison_handsOver (hl : Loaded m irm gVars lVars g s base) (ht : t ≠ .void)
    (hp : irm.graph.Reachable p.1)
    (hin : condComparisonIn irm.graph t t op (isZero lhs) (isZero rhs) (exprIn irm.graph lhs).value
      (exprIn irm.graph rhs).value p ifId elseId) :
    (isZero lhs && isZero rhs) = false ∧ ∃ r, irm.graph.Reachable r.1 ∧
      operandsIn (isZero lhs) (isZero rhs) (exprIn irm.graph lhs).value (exprIn irm.graph rhs).value
        p r ∧
      irm.graph.Edge r.1 ifId ∧ irm.graph.Edge r.1 elseId ∧
      ∀ a b bottom vm, AtOperands irm gVars lVars g base t lhs rhs r a b bottom vm → ∃ vm',
        HandsOver irm.graph g s base r.1
          (if vmIfCheck (conditionFor (if isZero lhs then flipOp op else op))
            (testedByte (isZero lhs) (isZero rhs) a b) then ifId else elseId) vm vm' ∧
        vm'.Ready ∧ OnStack vm bottom [] vm' := by
  obtain ⟨hboth, r, r1, hoperands, htested, hends⟩ := condComparisonIn_split hin
  have hr := reachable_of_operandsIn hp hoperands
  have hblock : r1.1 = r.1 := testedIn_block htested
  have hout : irm.graph.out r.1 = [(.conditional
      (conditionFor (if isZero lhs then flipOp op else op)), ifId), (.default, elseId)] := by
    obtain ⟨b, hb, -, hedges⟩ := hends
    rw [← hblock, IRGraph.out_of_node hb, hedges]
  refine ⟨hboth, r, hr, hoperands, ⟨_, hout ▸ List.mem_cons_self, rfl⟩,
    ⟨_, hout ▸ List.mem_cons_of_mem _ List.mem_cons_self, rfl⟩, ?_⟩
  rintro a b bottom vm ⟨hready, hip, hstack, ha, hb, -, -⟩
  obtain ⟨n, vm1, hrun, hip1, htop⟩ := tested_runs hl hr hboth ht ha hb htested hready hip hstack
  have hready1 : vm1.Ready := by
    refine htop.ready hready ?_
    have hroom := hready.room
    rw [hstack.top] at hroom
    have hpos := length_operandBytes_pos hboth ht ha hb
    show bottom + 1 ≤ _
    omega
  have htest : OnStack vm bottom ([] ++ [testedByte (isZero lhs) (isZero rhs) a b]) vm1 := htop
  have hcond := hl.conditional (hblock ▸ hr) hends hready1 hip1
  rw [htest.topByte, hblock] at hcond
  refine ⟨_, hrun.handsOver hcond, hready1.of_drop 1 _, ?_⟩
  have hdrop := htest.drop rfl
  exact ⟨hdrop.top, hdrop.bytes, hdrop.below, hdrop.control⟩

/-- From the operands of a comparison at `p` on, the machine goes to the right successor exactly where
    the comparison `ComparesWell`, as a condition and as a value. -/
structure BranchesWell (irm : IRMethod) (gVars lVars : VarAllocation) (g : IRGraph Bytecode)
    (s : Storage) (base : Nat) (t : Typ) (op : BinaryOp) (lhs rhs : TExpression) (p : Pos) : Prop where
  cond : ∀ ifId elseId, (exprIn irm.graph (.binaryExpression .byte lhs op rhs)).cond p ifId elseId →
    ∃ r, operandsIn (isZero lhs) (isZero rhs) (exprIn irm.graph lhs).value (exprIn irm.graph rhs).value
        p r ∧
      ∀ a b bottom vm, AtOperands irm gVars lVars g base t lhs rhs r a b bottom vm →
        ∃ taken vm', HandsOver irm.graph g s base r.1 (if taken then ifId else elseId) vm vm' ∧
          OnStack vm bottom [] vm' ∧
          (taken = relates op (valInt a) (valInt b) ↔ ComparesWell op (isZero lhs) (isZero rhs) a b)
  value : ∀ q, (exprIn irm.graph (.binaryExpression .byte lhs op rhs)).value p q →
    ∃ r thenId elseId, operandsIn (isZero lhs) (isZero rhs) (exprIn irm.graph lhs).value
        (exprIn irm.graph rhs).value p r ∧
      ∀ a b bottom vm, AtOperands irm gVars lVars g base t lhs rhs r a b bottom vm →
        ∃ taken vm' vm'', HandsOver irm.graph g s base r.1 (if taken then thenId else elseId) vm vm' ∧
          OnStack vm bottom [] vm' ∧
          HandsOver irm.graph g s base (if taken then thenId else elseId) q.1 vm' vm'' ∧
          vm''.ip = addr gVars lVars irm.graph g base q ∧
          OnStack vm bottom [if taken then 1 else 0] vm'' ∧
          (taken = relates op (valInt a) (valInt b) ↔ ComparesWell op (isZero lhs) (isZero rhs) a b)

/-- A comparison is built as a condition. -/
theorem exprIn_comparison (hop : op.isComparison = true) :
    exprIn G (.binaryExpression u lhs op rhs) = .ofCond G
      (condComparisonIn G (typeOf lhs) (typeOf rhs) op (isZero lhs) (isZero rhs) (exprIn G lhs).value
        (exprIn G rhs).value) (andThen (exprIn G lhs).void (exprIn G rhs).void) := by
  cases op <;> cases hop <;> rfl

/-- A block that pushes a byte and hands over. -/
theorem constantBlock_handsOver (hl : Loaded m irm gVars lVars g s base) {n d : Nat} {v : VByte}
    (hn : irm.graph.Reachable n) (hblock : constantBlock irm.graph n v d) (hr : vm.Ready)
    (hip : vm.ip = base + blockStart g n) (h : OnStack vm₀ bottom [] vm)
    (hroom : bottom + 1 ≤ vm₀.stack + (STACK_SIZE - 2)) (hr₀ : vm₀.Ready) :
    ∃ vm', HandsOver irm.graph g s base n d vm vm' ∧ OnStack vm₀ bottom [v] vm' := by
  obtain ⟨r, hin, hends⟩ := hblock
  rw [← addr_start irm.graph n] at hip
  obtain ⟨k, hrun, haddr⟩ := hl.instrAt rfl hn hin hr hip
  have hpush : OnStack vm₀ bottom [v] (vm.pushByte v) := h.pushByte v
  have hsame : r.1 = n := by rw [hin.1]
  have hready := (hpush.advance k).ready hr₀ hroom
  have hdefault := hl.default (hsame ▸ hn) hends hready haddr
  rw [hsame] at hdefault
  refine ⟨_, hrun.handsOver hdefault, ?_⟩
  exact ⟨hpush.top, hpush.bytes, hpush.below, hpush.control⟩

theorem AtOperands.outcome {a b : Val} (h : AtOperands irm gVars lVars g base t lhs rhs r a b bottom vm)
    (hop : op.isComparison = true) (ht : t ≠ .void) (hboth : (isZero lhs && isZero rhs) = false) :
    vmIfCheck (conditionFor (if isZero lhs then flipOp op else op))
        (testedByte (isZero lhs) (isZero rhs) a b) = relates op (valInt a) (valInt b) ↔
      ComparesWell op (isZero lhs) (isZero rhs) a b :=
  testedByte_iff hop hboth ht h.lhsType h.rhsType h.lhsZero h.rhsZero

/-- A placed comparison branches well. -/
theorem branchesWell (hl : Loaded m irm gVars lVars g s base) (hop : op.isComparison = true)
    (ht : t ≠ .void) (hlhs : typeOf lhs = t) (hrhs : typeOf rhs = t)
    (hp : irm.graph.Reachable p.1) : BranchesWell irm gVars lVars g s base t op lhs rhs p := by
  refine ⟨fun ifId elseId hin => ?_, fun q hin => ?_⟩
  · rw [exprIn_comparison hop, hlhs, hrhs] at hin
    obtain ⟨hboth, r, -, hoperands, -, -, hrun⟩ := comparison_handsOver hl ht hp hin
    refine ⟨r, hoperands, fun a b bottom vm hat => ?_⟩
    obtain ⟨vm', hover, -, hstack⟩ := hrun a b bottom vm hat
    exact ⟨_, vm', hover, hstack, hat.outcome hop ht hboth⟩
  · rw [exprIn_comparison hop, hlhs, hrhs] at hin
    obtain ⟨thenId, elseId, afterId, hcond, hthen, helse, rfl⟩ := hin
    obtain ⟨hboth, r, hr, hoperands, hedge, hedge', hrun⟩ := comparison_handsOver hl ht hp hcond
    refine ⟨r, thenId, elseId, hoperands, fun a b bottom vm hat => ?_⟩
    obtain ⟨vm', hover, hready, hstack⟩ := hrun a b bottom vm hat
    have hroom : bottom + 1 ≤ vm.stack + (STACK_SIZE - 2) := by
      have hpos : 0 < (operandBytes (isZero lhs) (isZero rhs) a b).length :=
        length_operandBytes_pos hboth ht hat.lhsType hat.rhsType
      have htop := hat.ready.room
      rw [hat.stack.top] at htop
      omega
    have hpush : ∀ {n : Nat} {v : VByte}, irm.graph.Reachable n → constantBlock irm.graph n v afterId →
        vm'.ip = base + blockStart g n →
          ∃ vm'', HandsOver irm.graph g s base n afterId vm' vm'' ∧ OnStack vm bottom [v] vm'' :=
      fun hn hblock hip => constantBlock_handsOver hl hn hblock hready hip hstack hroom hat.ready
    have hout := hat.outcome hop ht hboth
    generalize vmIfCheck (conditionFor (if isZero lhs then flipOp op else op))
      (testedByte (isZero lhs) (isZero rhs) a b) = taken at hover hout
    refine ⟨taken, vm', ?_⟩
    cases taken with
    | true =>
      obtain ⟨vm'', hover', hstack'⟩ := hpush (hr.tail hedge) hthen hover.ip
      exact ⟨vm'', hover, hstack, hover', hover'.ip.trans (addr_start _ _).symm, hstack', hout⟩
    | false =>
      obtain ⟨vm'', hover', hstack'⟩ := hpush (hr.tail hedge') helse hover.ip
      exact ⟨vm'', hover, hstack, hover', hover'.ip.trans (addr_start _ _).symm, hstack', hout⟩

end Runs

/-! ## Comparisons of the source -/

/-- A comparison of two literals is folded to its outcome; every other one keeps its operands. -/
theorem constantEval_comparison (hop : op.isComparison = true) {st : BindingState} {u : Typ}
    {lhs rhs : TExpression} (he : WellTyped st (.binaryExpression u lhs op rhs)) :
    (∃ v w, litVal (constantEval lhs) = some v ∧ litVal (constantEval rhs) = some w ∧
        constantEval (.binaryExpression u lhs op rhs) =
          .byteLiteral (boolByte (relates op (valInt v) (valInt w)))) ∨
      constantEval (.binaryExpression u lhs op rhs) =
        .binaryExpression u (constantEval lhs) op (constantEval rhs) := by
  obtain ⟨-, htypes, -, -, hl, hr⟩ := he
  have hlogical : op.isLogical = false := by
    cases op <;> cases hop <;> rfl
  have htypes' : typeOf (constantEval rhs) = typeOf (constantEval lhs) :=
    (constantEval_wellTyped rhs hr).1.trans (htypes.trans (constantEval_wellTyped lhs hl).1.symm)
  have hfold : ∀ {n : Nat} (a b : BitVec n),
      evalComparison a op b = some (relates op a.toInt b.toInt) := by
    intro n a b
    rw [evalComparison_eq, vmCompare, if_pos hop, vmIfCheck_cmp_relates hop]
  show (∃ v w, _ ∧ _ ∧ (evalBinary (constantEval lhs) op (constantEval rhs)).getD _ = _) ∨
    (evalBinary (constantEval lhs) op (constantEval rhs)).getD _ = _
  generalize constantEval lhs = l at htypes'
  generalize constantEval rhs = r at htypes'
  cases heval : evalBinary l op r with
  | none => exact .inr rfl
  | some e =>
    left
    obtain ⟨v, w, hv, hw⟩ := evalBinary_arith_inv hlogical heval
    refine ⟨v, w, hv, hw, ?_⟩
    cases l with
    | byteLiteral a =>
      cases r with
      | byteLiteral b =>
        rw [evalBinary_bytes _ _ hlogical, evalArith_comparison hop, hfold] at heval
        obtain rfl := Option.some.inj hv
        obtain rfl := Option.some.inj hw
        exact (Option.some.inj heval).symm
      | shortLiteral => cases htypes'
      | _ => cases hw
    | shortLiteral a =>
      cases r with
      | shortLiteral b =>
        rw [evalBinary_shorts, evalArith_comparison hop, hfold] at heval
        obtain rfl := Option.some.inj hv
        obtain rfl := Option.some.inj hw
        exact (Option.some.inj heval).symm
      | byteLiteral => cases htypes'
      | _ => cases hw
    | _ => cases hv

/-- **Comparisons on the machine.**  The operands of a comparison of the source are promoted to one
    type.  Two constants are folded to the outcome; the code of every other comparison, wherever it
    stands in a compiled method, goes to the successor that the relation of the operands asks for
    exactly where the comparison `ComparesWell`. -/
theorem comparison_exact_iff (hop : op.isComparison = true) {st : BindingState} {x y : Expression}
    {e : TExpression} (hsource : buildTExpression st (.binaryExpression x op y) = .ok e) :
    ∃ t lhs rhs, e = .binaryExpression .byte lhs op rhs ∧ t ≠ .void ∧ typeOf lhs = t ∧
      typeOf rhs = t ∧
      ((∃ v w, litVal (constantEval lhs) = some v ∧ litVal (constantEval rhs) = some w ∧
          constantEval e = .byteLiteral (boolByte (relates op (valInt v) (valInt w)))) ∨
        constantEval e = .binaryExpression .byte (constantEval lhs) op (constantEval rhs) ∧
          ∀ m irm gVars lVars g s base, Loaded m irm gVars lVars g s base → ∀ p : Pos,
            irm.graph.Reachable p.1 →
              BranchesWell irm gVars lVars g s base t op (constantEval lhs) (constantEval rhs) p) := by
  have hlogical : op.isLogical = false := by
    cases op <;> cases hop <;> rfl
  have hwell := buildTExpression_wellTyped _ hsource
  obtain ⟨a, b, lhs, rhs, ha, hb, hlhs, hrhs, hmax, rfl⟩ := buildTExpression_operator hlogical hsource
  obtain ⟨htl, hwl⟩ := typePromoteCheck_typed (buildTExpression_wellTyped x ha) hlhs
  obtain ⟨htr, hwr⟩ := typePromoteCheck_typed (buildTExpression_wellTyped y hb) hrhs
  rw [outType, if_pos hop] at hwell ⊢
  refine ⟨_, lhs, rhs, rfl, hmax, htl, htr, ?_⟩
  rcases constantEval_comparison hop hwell with hlit | hkept
  · exact .inl hlit
  · refine .inr ⟨hkept, fun m irm gVars lVars g s base hl p hp => ?_⟩
    exact branchesWell hl hop hmax ((constantEval_wellTyped lhs hwl).1.trans htl)
      ((constantEval_wellTyped rhs hwr).1.trans htr) hp

/-! ## A test for a positive number -/

/-- `void f() { short x; if (x > 0) return; }` -/
def positiveTest : TMethod :=
  ⟨0, .void, [], [⟨0, .short⟩], [("x", 0)],
    [.ifStatement (.binaryExpression .byte (.localLoad .short 0) .gt (.shortLiteral 0)) .returnStatement
      none]⟩

/-- Its code. -/
def positiveCode : Storage := fun a => [16, 54, 77, 6, 0, 80, 4, 0, 85, 85][a]?

theorem positiveTest_loaded :
    ∃ irm g, Loaded positiveTest irm [] [(0, 0, .short)] g positiveCode 0 ∧
      irm.graph.node 0 = some ⟨[.load 0, .arith .byte .or], [(.conditional .ifGt, 1), (.default, 2)]⟩ ∧
      blockStart g 0 = 0 ∧ blockStart g 1 = 8 ∧ blockStart g 2 = 9 := by
  have hcompile : ∃ irm g code bytes, buildIRMethod positiveTest = .ok irm ∧
      nmapM (outputBlock [] [(0, 0, .short)]) irm.graph = .ok g ∧ scheduleBlocks g = .ok code ∧
      code.mapM bytecodeByte = .ok bytes ∧ bytes = [16, 54, 77, 6, 0, 80, 4, 0, 85, 85] ∧
      irm.graph.node 0 = some ⟨[.load 0, .arith .byte .or], [(.conditional .ifGt, 1), (.default, 2)]⟩ ∧
      blockStart g 0 = 0 ∧ blockStart g 1 = 8 ∧ blockStart g 2 = 9 :=
    ⟨_, _, _, _, rfl, rfl, rfl, rfl, rfl, rfl, rfl, rfl, rfl⟩
  obtain ⟨irm, g, code, bytes, hm, hg, hcode, hbytes, rfl, hnode, hstarts⟩ := hcompile
  refine ⟨irm, g, ⟨hm, hg, code, _, hcode, hbytes, by decide, fun i b h => ?_⟩, hnode, hstarts⟩
  show [16, 54, 77, 6, 0, 80, 4, 0, 85, 85][0 + i]? = some b
  rwa [Nat.zero_add]

/-- `x > 0` compares well, with exceptions. -/
theorem comparison_exact_iff_positive :
    ∃ irm g, Loaded positiveTest irm [] [(0, 0, .short)] g positiveCode 0 ∧
      BranchesWell irm [] [(0, 0, .short)] g positiveCode 0 .short .gt (.localLoad .short 0)
        (.shortLiteral 0) (0, 0) := by
  obtain ⟨irm, g, hl, -⟩ := positiveTest_loaded
  let st : BindingState := ⟨[], [], [], [], [⟨0, .short⟩], [[("x", 0)]], .void, false⟩
  have hsource : buildTExpression st (.binaryExpression (.variableAccess "x") .gt (.byteLiteral 0)) =
      .ok (.binaryExpression .byte (.localLoad .short 0) .gt
        (.typeConversion .short (.byteLiteral 0))) := rfl
  obtain ⟨t, lhs, rhs, heq, -, htl, -, hcases⟩ := comparison_exact_iff rfl hsource
  obtain ⟨-, rfl, -, rfl⟩ := TExpression.binaryExpression.inj heq
  obtain rfl : t = .short := htl.symm
  rcases hcases with ⟨v, w, hv, -⟩ | ⟨-, hbranch⟩
  · exact (nomatch hv)
  · have hstart : irm.graph.Reachable ((0, 0) : Pos).1 := .refl
    exact ⟨irm, g, hl, hbranch _ _ _ _ _ _ _ hl _ hstart⟩

/-- The machine with the short 0x0080 on its stack. -/
def aboveByteMachine : Vmstate :=
  { fiveMachine with ip := 1, stackTop := 10, mem := fun a => if a = 9 then 0x80 else 0 }

/-- 128 is greater than 0, but the machine goes to the false successor. -/
theorem comparison_loses_sign :
    ∃ irm g, Loaded positiveTest irm [] [(0, 0, .short)] g positiveCode 0 ∧
      (exprIn irm.graph (.binaryExpression .byte (.localLoad .short 0) .gt (.shortLiteral 0))).cond
        (0, 0) 1 2 ∧
      AtOperands irm [] [(0, 0, .short)] g 0 .short (.localLoad .short 0) (.shortLiteral 0) (0, 1)
        (.short 0x80) (.short 0) 8 aboveByteMachine ∧
      relates .gt (valInt (.short 0x80)) (valInt (.short 0)) = true ∧
      blockStart g 1 ≠ blockStart g 2 ∧
      ∃ vm', HandsOver irm.graph g positiveCode 0 0 2 aboveByteMachine vm' := by
  obtain ⟨irm, g, hl, hnode, hstart, hone, htwo⟩ := positiveTest_loaded
  have hload : InstrsAt irm.graph [.load 0] (0, 0) (0, 1) := ⟨rfl, _, hnode, [.arith .byte .or], rfl⟩
  have hcast : InstrsAt irm.graph [.arith .byte .or] (0, 1) (0, 2) := ⟨rfl, _, hnode, [], rfl⟩
  have hcond : (exprIn irm.graph
      (.binaryExpression .byte (.localLoad .short 0) .gt (.shortLiteral 0))).cond (0, 0) 1 2 :=
    ⟨rfl, (0, 2), ⟨(0, 2), ⟨(0, 2), ⟨(0, 1), hload, hcast⟩, rfl⟩, rfl⟩, _, hnode, rfl, rfl⟩
  have hcode : instrsCode [] [(0, 0, .short)] [.load 0] = .ok [.loadN .short 0] := rfl
  have haddr := @addr_of_node [] [(0, 0, .short)] g 0 irm.graph 0 1 _ hnode _ hcode
  rw [hstart] at haddr
  have hat : AtOperands irm [] [(0, 0, .short)] g 0 .short (.localLoad .short 0) (.shortLiteral 0)
      (0, 1) (.short 0x80) (.short 0) 8 aboveByteMachine := by
    refine ⟨⟨rfl, by decide⟩, haddr.symm, ⟨rfl, fun i v hi => ?_, fun a ha => rfl, rfl⟩, rfl, rfl,
      fun h => (nomatch h), fun _ => rfl⟩
    match i with
    | 0 => exact Option.some.inj hi
    | 1 => exact Option.some.inj hi
    | i + 2 => exact (nomatch hi)
  refine ⟨irm, g, hl, hcond, hat, by decide, by rw [hone, htwo]; decide, ?_⟩
  have hreach : irm.graph.Reachable ((0, 0) : Pos).1 := .refl
  obtain ⟨-, r, -, ⟨r', hlhs, hrhs⟩, -, -, hrun⟩ :=
    comparison_handsOver (t := .short) hl (by decide) hreach hcond
  obtain rfl : r = r' := hrhs
  obtain rfl : r = (0, 1) := hlhs.1
  obtain ⟨vm', hover, -⟩ := hrun _ _ _ _ hat
  have htest : vmIfCheck (conditionFor .gt) (testedByte false true (.short 0x80) (.short 0)) = false := by
    decide
  have hover' : HandsOver irm.graph g positiveCode 0 0
      (if vmIfCheck (conditionFor .gt) (testedByte false true (.short 0x80) (.short 0)) then 1 else 2)
      aboveByteMachine vm' := hover
  rw [htest] at hover'
  exact ⟨vm', hover'⟩

end KeyboardFirmware.Vm
