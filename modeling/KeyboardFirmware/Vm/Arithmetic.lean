/-
  Arithmetic on the machine.

  The machine leaves what `arithmetic_runs` says: the value of the expression, in the bytes of its
  type, unless some shift has the type short.  The operators of a short pop two shorts, but `SLSHIFT`
  and `SRSHIFT` take a count of one byte, so each of these leaves a byte of its count behind.
-/
import KeyboardFirmware.Vm.Straight
import KeyboardFirmware.Compiler.Arithmetic

namespace KeyboardFirmware.Vm

open Compiler

variable {gVars lVars : VarAllocation} {t : Typ} {e : TExpression}

/-! ## Values -/

/-- The variables of a method as its frame has them. -/
def frameValue (lVars : VarAllocation) (vm : Vmstate) (i : VariableID) : Val :=
  match lVars.lookup i with
  | some (slot, .byte) => .byte (vm.mem (vm.currentFrame + 6 + slot))
  | some (slot, .short) => .short (vm.shortAt (vm.currentFrame + 6 + slot))
  | _ => .void

/-- Expressions over the variables of a frame; arithmetic asks for nothing else. -/
def frameMachine (lVars : VarAllocation) (vm : Vmstate) : Machine Unit where
  load _ x _ :=
    match x with
    | .local i => frameValue lVars vm i
    | .global _ => .void
  store s _ _ := s
  call _ _ _ := none
  syscall _ _ _ := none

/-- The variables of a method lie in its frame, below the operands. -/
structure InFrame (lVars : VarAllocation) (vm : Vmstate) : Prop where
  frame : vm.stack ≤ vm.currentFrame
  slot : ∀ i slot t, lVars.lookup i = some (slot, t) →
    vm.currentFrame + 6 + slot + typeBytes t ≤ vm.stackTop + 1

/-! ## Operators -/

/-- A byte operator takes two bytes and leaves one. -/
theorem arithByte_binary {op : BinaryOp} {aop : ArithOp} (hop : opFor op = some aop) (vm : Vmstate) :
    ∃ w, vm.arithByte aop = ((vm.drop 1).drop 1).pushByte w ∧
      ∀ v, vmArith op (vm.drop 1).topByte vm.topByte = some v → w = v := by
  cases op <;> cases hop <;> refine ⟨_, rfl, fun v hv => ?_⟩
  case divide | mod | lshift | rshift =>
    simp only [vmArith] at hv
    split at hv <;> first | exact Option.some.inj hv | cases hv
  all_goals exact Option.some.inj hv

/-- A short operator takes two shorts and leaves one, unless it is a shift. -/
theorem arithShort_binary {op : BinaryOp} {aop : ArithOp} (hop : opFor op = some aop)
    (hshift : isShift op = false) (vm : Vmstate) :
    ∃ w, vm.arithShort aop = ((vm.drop 2).drop 2).pushShort w ∧
      ∀ v, vmArith op (vm.drop 2).topShort vm.topShort = some v → w = v := by
  cases op <;> cases hop <;> cases hshift <;> refine ⟨_, rfl, fun v hv => ?_⟩
  case divide | mod =>
    simp only [vmArith] at hv
    split at hv <;> first | exact Option.some.inj hv | cases hv
  all_goals exact Option.some.inj hv

/-- A short shift takes only one byte of its count. -/
theorem arithShort_shift {op : BinaryOp} {aop : ArithOp} (hop : opFor op = some aop)
    (hshift : isShift op = true) (vm : Vmstate) :
    ∃ w, vm.arithShort aop = ((vm.drop 1).drop 2).pushShort w := by
  cases op <;> cases hop <;> cases hshift <;> exact ⟨_, rfl⟩

/-- An arithmetic operator on two values gives one of their type. -/
theorem binaryVal_arith {op : BinaryOp} {aop : ArithOp} (hop : opFor op = some aop) {a b v : Val}
    (h : binaryVal op a b = some v) :
    (∃ x y z, a = .byte x ∧ b = .byte y ∧ v = .byte z ∧ vmArith op x y = some z) ∨
      ∃ x y z, a = .short x ∧ b = .short y ∧ v = .short z ∧ vmArith op x y = some z := by
  have hcmp : op.isComparison = false := by
    cases op <;> cases hop <;> rfl
  cases a with
  | byte x =>
    cases b with
    | byte y =>
      simp only [binaryVal, vmCompare, hcmp, Bool.false_eq_true, if_false, Option.map_none,
        Option.or_none, Option.map_eq_some_iff] at h
      obtain ⟨z, hz, rfl⟩ := h
      exact .inl ⟨x, y, z, rfl, rfl, rfl, hz⟩
    | short | void => cases h
  | short x =>
    cases b with
    | short y =>
      simp only [binaryVal, vmCompare, hcmp, Bool.false_eq_true, if_false, Option.map_none,
        Option.or_none, Option.map_eq_some_iff] at h
      obtain ⟨z, hz, rfl⟩ := h
      exact .inr ⟨x, y, z, rfl, rfl, rfl, hz⟩
    | byte | void => cases h
  | void => cases h

/-- The value of an expression has its type. -/
theorem value_bytes {vm : Vmstate} (he : Arithmetic lVars t e) :
    ∀ {st st' : MState Unit} {v : Val}, evalT (frameMachine lVars vm) e st = some (v, st') →
      (valBytes v).length = typeBytes t := by
  induction he with
  | byteLiteral | shortLiteral =>
    intro st st' v hv
    obtain ⟨rfl, -⟩ := Prod.mk.inj (Option.some.inj hv)
    rfl
  | @localLoad t i slot hslot ht =>
    intro st st' v hv
    obtain ⟨rfl, -⟩ := Prod.mk.inj (Option.some.inj hv)
    cases t <;> simp [frameMachine, frameValue, hslot, valBytes, typeBytes]
  | complement _ ih | minus _ ih =>
    intro st st' v hv
    obtain ⟨a, hea, ha⟩ := (evalT_prefixExpression ⟨by decide, by decide⟩).mp hv
    rw [← ih hea]
    cases a <;> cases ha <;> rfl
  | @binary t l r op aop hop _ _ ihl ihr =>
    intro st st' v hv
    have hlogical : op.isLogical = false := by
      cases op <;> cases hop <;> rfl
    obtain ⟨a, st1, b, hea, -, hab⟩ := (evalT_binaryExpression hlogical).mp hv
    rw [← ihl hea]
    obtain ⟨x, y, z, rfl, -, rfl, -⟩ | ⟨x, y, z, rfl, -, rfl, -⟩ := binaryVal_arith hop hab
    · rfl
    · rfl
  | toShort _ ih =>
    intro st st' v hv
    obtain ⟨a, -, ha⟩ := evalT_typeConversion.mp hv
    cases a with
    | byte => exact Option.some.inj ha ▸ rfl
    | short | void => exact (nomatch ha)
  | toByte _ ih =>
    intro st st' v hv
    obtain ⟨a, -, ha⟩ := evalT_typeConversion.mp hv
    cases a with
    | short => exact Option.some.inj ha ▸ rfl
    | byte | void => exact (nomatch ha)

theorem drop_drop (vm : Vmstate) (m n : Nat) : (vm.drop m).drop n = vm.drop (m + n) := by
  show { vm with stackTop := vm.stackTop - m - n } = { vm with stackTop := vm.stackTop - (m + n) }
  rw [Nat.sub_sub]

section Operators

variable {vm₀ vm : Vmstate} {base : Nat} {bs cs ca cb : List VByte}

/-- Some bytes are taken and a byte is pushed. -/
theorem OnStack.replaceByte (h : OnStack vm₀ base (bs ++ cs) vm) {k : Nat} (hk : k ≤ cs.length)
    (w : VByte) :
    OnStack vm₀ base (bs ++ (cs.take (cs.length - k) ++ [w])) ((vm.drop k).pushByte w) := by
  rw [← List.take_append_drop (cs.length - k) cs, ← List.append_assoc] at h
  have hdrop : (cs.drop (cs.length - k)).length = k := by
    rw [List.length_drop]
    omega
  rw [← List.append_assoc]
  exact (h.drop hdrop).pushByte w

/-- Some bytes are taken and a short is pushed. -/
theorem OnStack.replaceShort (h : OnStack vm₀ base (bs ++ cs) vm) {k : Nat} (hk : k ≤ cs.length)
    (w : VShort) :
    OnStack vm₀ base (bs ++ (cs.take (cs.length - k) ++ [lowByte w, highByte w]))
      ((vm.drop k).pushShort w) := by
  rw [← List.take_append_drop (cs.length - k) cs, ← List.append_assoc] at h
  have hdrop : (cs.drop (cs.length - k)).length = k := by
    rw [List.length_drop]
    omega
  rw [← List.append_assoc]
  exact (h.drop hdrop).pushShort w

theorem length_replace (k : Nat) (ws : List VByte) :
    (cs.take (cs.length - k) ++ ws).length = cs.length - k + ws.length := by
  rw [List.length_append, List.length_take, Nat.min_eq_left (Nat.sub_le _ _)]

/-- A binary operator on what two operands have left. -/
theorem OnStack.arith {op : BinaryOp} {aop : ArithOp} (hop : opFor op = some aop) {t : Typ}
    (ht : t ≠ .void) (h : OnStack vm₀ base (bs ++ (ca ++ cb)) vm)
    (ha : typeBytes t ≤ ca.length) (hb : typeBytes t ≤ cb.length) :
    ∃ cs, OnStack vm₀ base (bs ++ cs) (vm.arith aop t) ∧
      cs.length + typeBytes t =
        ca.length + cb.length + (if t = .short ∧ isShift op then 1 else 0) ∧
      (¬ (t = .short ∧ isShift op) → ca.length = typeBytes t → ∀ a b v, ca = valBytes a →
        cb = valBytes b → binaryVal op a b = some v → cs = valBytes v) := by
  have hlen : (ca ++ cb).length = ca.length + cb.length := List.length_append
  cases t with
  | void => exact absurd rfl ht
  | byte =>
    have ha' : 1 ≤ ca.length := ha
    have hb' : 1 ≤ cb.length := hb
    obtain ⟨w, hw, hval⟩ := arithByte_binary hop vm
    have heq : vm.arith aop .byte = (vm.drop 2).pushByte w := by
      rw [← drop_drop vm 1 1, ← hw]
      rfl
    refine ⟨_, heq ▸ h.replaceByte (by omega) w, ?_, ?_⟩
    · rw [length_replace, List.length_singleton, if_neg (fun h => nomatch h.1), hlen]
      show _ - 2 + 1 + 1 = _
      omega
    · rintro - hca a b v rfl rfl hv
      obtain ⟨x, y, z, rfl, rfl, rfl, hz⟩ | ⟨x, y, z, rfl, -, -, -⟩ := binaryVal_arith hop hv
      · have hy : OnStack vm₀ base ((bs ++ [x]) ++ [y]) vm := by
          rw [List.append_assoc]
          exact h
        have hx : (vm.drop 1).topByte = x := (hy.drop rfl).topByte
        rw [hval z (by rw [hx, hy.topByte, hz])]
        rfl
      · exact absurd hca (fun h => nomatch h)
  | short =>
    have ha' : 2 ≤ ca.length := ha
    have hb' : 2 ≤ cb.length := hb
    cases hshift : isShift op with
    | true =>
      obtain ⟨w, hw⟩ := arithShort_shift hop hshift vm
      have heq : vm.arith aop .short = (vm.drop 3).pushShort w := by
        rw [← drop_drop vm 1 2, ← hw]
        rfl
      refine ⟨_, heq ▸ h.replaceShort (by omega) w, ?_, fun hno => absurd ⟨rfl, rfl⟩ hno⟩
      rw [length_replace, if_pos ⟨rfl, rfl⟩, hlen]
      show _ - 3 + 2 + 2 = _
      omega
    | false =>
      obtain ⟨w, hw, hval⟩ := arithShort_binary hop hshift vm
      have heq : vm.arith aop .short = (vm.drop 4).pushShort w := by
        rw [← drop_drop vm 2 2, ← hw]
        rfl
      refine ⟨_, heq ▸ h.replaceShort (by omega) w, ?_, ?_⟩
      · rw [length_replace, if_neg (fun h => nomatch h.2), hlen]
        show _ - 4 + 2 + 2 = _
        omega
      · rintro - hca a b v rfl rfl hv
        obtain ⟨x, y, z, rfl, -, -, -⟩ | ⟨x, y, z, rfl, rfl, rfl, hz⟩ := binaryVal_arith hop hv
        · exact absurd hca (fun h => nomatch h)
        · have hy : OnStack vm₀ base ((bs ++ [lowByte x, highByte x]) ++ [lowByte y, highByte y]) vm := by
            rw [List.append_assoc]
            exact h
          have hx : (vm.drop 2).topShort = x := (hy.drop rfl).topShort_bytes
          rw [hval z (by rw [hx, hy.topShort_bytes, hz])]
          rfl

/-- The complement of what an operand has left. -/
theorem OnStack.complement {t : Typ} (ht : t ≠ .void) (h : OnStack vm₀ base (bs ++ cs) vm)
    (hlen : typeBytes t ≤ cs.length) :
    ∃ cs', OnStack vm₀ base (bs ++ cs') (vm.arith .complement t) ∧ cs'.length = cs.length ∧
      (cs.length = typeBytes t → ∀ a v, cs = valBytes a → prefixVal .complement a = some v →
        cs' = valBytes v) := by
  cases t with
  | void => exact absurd rfl ht
  | byte =>
    have hlen' : 1 ≤ cs.length := hlen
    refine ⟨_, h.replaceByte hlen' (~~~vm.topByte), ?_, ?_⟩
    · rw [length_replace, List.length_singleton]
      omega
    · rintro hcs a v rfl hv
      cases a with
      | short | void => exact (nomatch hcs)
      | byte x =>
        obtain rfl := Option.some.inj hv
        rw [h.topByte]
        rfl
  | short =>
    have hlen' : 2 ≤ cs.length := hlen
    refine ⟨_, h.replaceShort hlen' (~~~vm.topShort), ?_, ?_⟩
    · rw [length_replace]
      show _ - 2 + 2 = _
      omega
    · rintro hcs a v rfl hv
      cases a with
      | byte | void => exact (nomatch hcs)
      | short x =>
        obtain rfl := Option.some.inj hv
        rw [h.topShort_bytes]
        rfl

/-- A byte is made a short. -/
theorem OnStack.b2s (h : OnStack vm₀ base (bs ++ cs) vm) (hlen : 1 ≤ cs.length) :
    ∃ cs', OnStack vm₀ base (bs ++ cs') ((vm.drop 1).pushShort (vmB2S vm.topByte)) ∧
      cs'.length = cs.length + 1 ∧
      (cs.length = 1 → ∀ a v, cs = valBytes a → convertVal .short a = some v → cs' = valBytes v) := by
  refine ⟨_, h.replaceShort hlen _, ?_, ?_⟩
  · rw [length_replace]
    show _ - 1 + 2 = _
    omega
  · rintro hcs a v rfl hv
    cases a with
    | short | void => exact (nomatch hcs)
    | byte x =>
      obtain rfl := Option.some.inj hv
      rw [h.topByte]
      rfl

/-- A short is made a byte. -/
theorem OnStack.s2b (h : OnStack vm₀ base (bs ++ cs) vm) (hlen : 2 ≤ cs.length) :
    ∃ cs', OnStack vm₀ base (bs ++ cs') ((vm.drop 2).pushByte (vmS2B vm.topShort)) ∧
      cs'.length + 1 = cs.length ∧
      (cs.length = 2 → ∀ a v, cs = valBytes a → convertVal .byte a = some v → cs' = valBytes v) := by
  refine ⟨_, h.replaceByte hlen _, ?_, ?_⟩
  · rw [length_replace, List.length_singleton]
    omega
  · rintro hcs a v rfl hv
    cases a with
    | byte | void => exact (nomatch hcs)
    | short x =>
      obtain rfl := Option.some.inj hv
      rw [h.topShort_bytes]
      rfl

end Operators

/-! ## Runs -/

/-- Bytes that the code of an expression has left. -/
structure LeftBy (lVars : VarAllocation) (vm₀ : Vmstate) (t : Typ) (e : TExpression)
    (cs : List VByte) : Prop where
  length : cs.length = typeBytes t + shortShifts e
  value : shortShifts e = 0 → ∀ st v st', evalT (frameMachine lVars vm₀) e st = some (v, st') →
    cs = valBytes v

section Runs

variable {s : Storage} {vm₀ : Vmstate}

/-- A variable of the frame is pushed. -/
theorem load_leaves {t : Typ} {i : VariableID} {slot : Nat} (hslot : lVars.lookup i = some (slot, t))
    (ht : t ≠ .void) (hframe : InFrame lVars vm₀) (hr : vm₀.Ready) {bs : List VByte} {vm : Vmstate}
    (h : OnStack vm₀ vm₀.stackTop bs vm) :
    ∃ cs, OnStack vm₀ vm₀.stackTop (bs ++ cs) (effect gVars lVars (.load i) vm) ∧
      LeftBy lVars vm₀ t (.localLoad t i) cs := by
  have hin := hframe.slot i slot t hslot
  have hlow := hframe.frame
  have hroom : vm₀.stackTop ≤ vm₀.stack + (96 - 2) := hr.room
  have haddr : vm.localAddr (slotByte slot) = vm₀.currentFrame + 6 + slot := by
    rw [localAddr_slotByte (by omega), h.frame_eq]
  simp only [effect, hslot, Option.elim_some, haddr]
  cases t with
  | void => exact absurd rfl ht
  | byte =>
    have hin' : vm₀.currentFrame + 6 + slot + 1 ≤ vm₀.stackTop + 1 := hin
    have hmem : vm.mem (vm₀.currentFrame + 6 + slot) = vm₀.mem (vm₀.currentFrame + 6 + slot) :=
      h.below _ (by omega)
    refine ⟨_, h.pushByte _, rfl, fun _ st v st' hv => ?_⟩
    obtain ⟨rfl, -⟩ := Prod.mk.inj (Option.some.inj hv)
    simp only [frameMachine, frameValue, hslot, valBytes, hmem]
  | short =>
    have hin' : vm₀.currentFrame + 6 + slot + 2 ≤ vm₀.stackTop + 1 := hin
    have hmem : vm.shortAt (vm₀.currentFrame + 6 + slot) = vm₀.shortAt (vm₀.currentFrame + 6 + slot) := by
      show shortOf _ _ = shortOf _ _
      rw [h.below _ (by omega), h.below _ (by omega)]
    refine ⟨_, h.pushShort _, rfl, fun _ st v st' hv => ?_⟩
    obtain ⟨rfl, -⟩ := Prod.mk.inj (Option.some.inj hv)
    simp only [frameMachine, frameValue, hslot, valBytes, hmem]

/-- The code of an expression runs, whatever lies on the stack already. -/
def Runs (s : Storage) (gVars lVars : VarAllocation) (vm₀ : Vmstate) (t : Typ) (e : TExpression) :
    Prop :=
  ∀ ⦃bs : List VByte⦄ ⦃vm : Vmstate⦄ ⦃code : List Bytecode⦄, OnStack vm₀ vm₀.stackTop bs vm →
    vm₀.stackTop + bs.length + stackNeed e ≤ vm₀.stack + (STACK_SIZE - 2) →
    instrsCode gVars lVars (valueInstrs e) = .ok code → CodeAt s vm.ip code →
    ∃ vm' cs, RunsThrough s code.length vm vm' ∧ OnStack vm₀ vm₀.stackTop (bs ++ cs) vm' ∧
      LeftBy lVars vm₀ t e cs

variable {t' : Typ} {e' l r : TExpression}

/-- A single instruction. -/
theorem Runs.one {i : IRInstruction} (hi : Straight i = true) (hr : vm₀.Ready)
    (hinstrs : valueInstrs e = [i])
    (heff : ∀ {bs vm}, OnStack vm₀ vm₀.stackTop bs vm →
      ∃ cs, OnStack vm₀ vm₀.stackTop (bs ++ cs) (effect gVars lVars i vm) ∧ LeftBy lVars vm₀ t e cs) :
    Runs s gVars lVars vm₀ t e := by
  intro bs vm code h hroom hcode hat
  rw [hinstrs] at hcode
  obtain ⟨c1, c2, h1, h2, rfl⟩ := instrsCode_cons.mp hcode
  obtain rfl := Except.ok.inj h2
  rw [List.append_nil] at hat ⊢
  obtain ⟨cs, hcs, hleft⟩ := heff h
  exact ⟨_, cs, instr_runs hi h1 (h.ready hr (by omega)) hat, hcs.advance _, hleft⟩

theorem Runs.byteLiteral (hr : vm₀.Ready) (v : VByte) :
    Runs s gVars lVars vm₀ .byte (.byteLiteral v) := by
  refine .one rfl hr rfl fun h => ⟨[v], h.pushByte v, rfl, fun _ st w st' hv => ?_⟩
  obtain ⟨rfl, -⟩ := Prod.mk.inj (Option.some.inj hv)
  rfl

theorem Runs.shortLiteral (hr : vm₀.Ready) (v : VShort) :
    Runs s gVars lVars vm₀ .short (.shortLiteral v) := by
  refine .one rfl hr rfl fun h => ⟨_, h.pushShort v, rfl, fun _ st w st' hv => ?_⟩
  obtain ⟨rfl, -⟩ := Prod.mk.inj (Option.some.inj hv)
  rfl

/-- An operand and an instruction. -/
theorem Runs.unary (he : Arithmetic lVars t e) (hrun : Runs s gVars lVars vm₀ t e) {i : IRInstruction}
    (hi : Straight i = true) (hr : vm₀.Ready) (hinstrs : valueInstrs e' = valueInstrs e ++ [i])
    (hneed : stackNeed e ≤ stackNeed e')
    (heff : ∀ {bs cs vm}, OnStack vm₀ vm₀.stackTop (bs ++ cs) vm → LeftBy lVars vm₀ t e cs →
      ∃ cs', OnStack vm₀ vm₀.stackTop (bs ++ cs') (effect gVars lVars i vm) ∧
        LeftBy lVars vm₀ t' e' cs') :
    Runs s gVars lVars vm₀ t' e' := by
  intro bs vm code h hroom hcode hat
  rw [hinstrs] at hcode
  obtain ⟨c1, c2, h1, h2, rfl⟩ := instrsCode_snoc.mp hcode
  obtain ⟨vm1, ca, hrun1, ha, hleft⟩ := hrun h (by omega) h1 (codeAt_append.mp hat).1
  have hsize := he.le_stackNeed
  have hlen := hleft.length
  have hr1 : vm1.Ready := ha.ready hr (by
    rw [List.length_append]
    omega)
  obtain ⟨cs, hcs, hleft'⟩ := heff ha hleft
  exact ⟨_, cs, hrun1.instr hi h2 hr1 hat, hcs.advance _, hleft'⟩

/-- Two operands and a binary operator. -/
theorem Runs.binary {op : BinaryOp} {aop : ArithOp} (hop : opFor op = some aop)
    (hl : Arithmetic lVars t l) (hrt : Arithmetic lVars t r) (hr : vm₀.Ready)
    (hrunl : Runs s gVars lVars vm₀ t l) (hrunr : Runs s gVars lVars vm₀ t r) :
    Runs s gVars lVars vm₀ t (.binaryExpression t l op r) := by
  intro bs vm code h hroom hcode hat
  have hinstrs : valueInstrs (.binaryExpression t l op r) =
      valueInstrs l ++ valueInstrs r ++ [.arith t aop] := by
    simp only [valueInstrs, hop, Option.map_some, Option.toList_some]
  have hneed : stackNeed (.binaryExpression t l op r) =
      max (stackNeed l) (typeBytes t + shortShifts l + stackNeed r) := by
    rw [stackNeed]
  rw [hinstrs] at hcode
  rw [hneed] at hroom
  obtain ⟨c, c3, hc, h3, rfl⟩ := instrsCode_snoc.mp hcode
  obtain ⟨c1, c2, h1, h2, rfl⟩ := instrsCode_append.mp hc
  have hat12 := codeAt_append.mp (codeAt_append.mp hat).1
  -- the left operand
  obtain ⟨vm1, ca, hrun1, ha, hlefta⟩ := hrunl h (by omega) h1 hat12.1
  have hlena := hlefta.length
  -- the right operand, on top of it
  have hroom2 : vm₀.stackTop + (bs ++ ca).length + stackNeed r ≤ vm₀.stack + (STACK_SIZE - 2) := by
    rw [List.length_append]
    omega
  obtain ⟨vm2, cb, hrun2, hb, hleftb⟩ := hrunr ha hroom2 h2 (hrun1.2 ▸ hat12.2)
  have hlenb := hleftb.length
  have hsizer := hrt.le_stackNeed
  have hr2 : vm2.Ready := hb.ready hr (by
    simp only [List.length_append] at hroom2 ⊢
    omega)
  have hrun12 : RunsThrough s (c1 ++ c2).length vm vm2 := by
    rw [List.length_append]
    exact hrun1.trans hrun2
  rw [List.append_assoc] at hb
  obtain ⟨cs, hcs, hlen, hval⟩ := hb.arith hop hl.not_void (by omega) (by omega)
  refine ⟨_, cs, hrun12.instr rfl h3 hr2 hat, hcs.advance _, ⟨?_, ?_⟩⟩
  · show _ = typeBytes t + (shortShifts l + shortShifts r + _)
    omega
  · intro hno st v st' hv
    have hlogical : op.isLogical = false := by
      cases op <;> cases hop <;> rfl
    obtain ⟨a, st1, b, hea, heb, hab⟩ := (evalT_binaryExpression hlogical).mp hv
    simp only [shortShifts, Nat.add_eq_zero_iff] at hno
    obtain ⟨⟨hnol, hnor⟩, hshift⟩ := hno
    have hexact : ¬ (t = .short ∧ isShift op) := fun hs => by
      rw [if_pos hs] at hshift
      exact absurd hshift Nat.one_ne_zero
    exact hval hexact (by omega) a b v (hlefta.value hnol _ _ _ hea) (hleftb.value hnor _ _ _ heb) hab

/-- The constant zero of a type. -/
def zeroLiteral : Typ → TExpression
  | .byte => .byteLiteral 0
  | _ => .shortLiteral 0

/-- A negation is a subtraction from zero. -/
theorem Runs.minus (he : Arithmetic lVars t e)
    (h : Runs s gVars lVars vm₀ t (.binaryExpression t (zeroLiteral t) .subtract e)) :
    Runs s gVars lVars vm₀ t (.prefixExpression t .minus e) := by
  have hinstrs : valueInstrs (.prefixExpression t .minus e) =
      valueInstrs (.binaryExpression t (zeroLiteral t) .subtract e) := by
    cases t with
    | void => exact absurd rfl he.not_void
    | byte | short => rfl
  have hshifts : shortShifts (.prefixExpression t .minus e) =
      shortShifts (.binaryExpression t (zeroLiteral t) .subtract e) := by
    cases t <;> simp [shortShifts, zeroLiteral, isShift]
  have hneed : stackNeed (.binaryExpression t (zeroLiteral t) .subtract e) ≤
      stackNeed (.prefixExpression t .minus e) := by
    cases t with
    | void => exact absurd rfl he.not_void
    | byte | short =>
      simp only [stackNeed, zeroLiteral, typeBytes, shortShifts]
      omega
  intro bs vm code hs hroom hcode hat
  rw [hinstrs] at hcode
  obtain ⟨vm', cs, hrun, hcs, hleft⟩ := h hs (by omega) hcode hat
  refine ⟨vm', cs, hrun, hcs, hshifts ▸ hleft.length, fun hno st v st' hv => ?_⟩
  obtain ⟨a, hea, ha⟩ := (evalT_prefixExpression ⟨by decide, by decide⟩).mp hv
  refine hleft.value (hshifts ▸ hno) st v st' ((evalT_binaryExpression rfl).mpr ?_)
  have hbytes := value_bytes he hea
  cases t with
  | void => exact absurd rfl he.not_void
  | byte =>
    cases a with
    | short | void => cases hbytes
    | byte x => exact ⟨.byte 0, st, .byte x, rfl, hea, ha⟩
  | short =>
    cases a with
    | byte | void => cases hbytes
    | short x => exact ⟨.short 0, st, .short x, rfl, hea, ha⟩

/-- **Arithmetic** runs. -/
theorem arithmetic_runs (he : Arithmetic lVars t e) (hr : vm₀.Ready) (hframe : InFrame lVars vm₀) :
    Runs s gVars lVars vm₀ t e := by
  induction he with
  | byteLiteral v => exact .byteLiteral hr v
  | shortLiteral v => exact .shortLiteral hr v
  | localLoad hslot ht => exact .one rfl hr rfl (load_leaves hslot ht hframe hr)
  | @complement t e he ih =>
    refine .unary he ih rfl hr rfl (Nat.le_refl _) fun h hleft => ?_
    have hlen := hleft.length
    obtain ⟨cs, hcs, hcslen, hval⟩ := h.complement he.not_void (by omega)
    refine ⟨cs, hcs, by rw [hcslen, hlen]; rfl, fun hno st v st' hv => ?_⟩
    obtain ⟨a, hea, ha⟩ := (evalT_prefixExpression ⟨by decide, by decide⟩).mp hv
    have hno' : shortShifts e = 0 := hno
    exact hval (by omega) a v (hleft.value hno' _ _ _ hea) ha
  | @minus t e he ih =>
    refine .minus he (.binary rfl ?_ he hr ?_ ih)
    · cases t with
      | void => exact absurd rfl he.not_void
      | byte => exact .byteLiteral 0
      | short => exact .shortLiteral 0
    · cases t with
      | void => exact absurd rfl he.not_void
      | byte => exact .byteLiteral hr 0
      | short => exact .shortLiteral hr 0
  | binary hop hl hrt ihl ihr => exact .binary hop hl hrt hr ihl ihr
  | @toShort e he ih =>
    refine .unary he ih rfl hr rfl (Nat.le_max_left _ _) fun h hleft => ?_
    have hlen : _ = 1 + _ := hleft.length
    obtain ⟨cs, hcs, hcslen, hval⟩ := h.b2s (by omega)
    refine ⟨cs, hcs, ?_, fun hno st v st' hv => ?_⟩
    · show _ = 2 + shortShifts e
      omega
    · obtain ⟨a, hea, ha⟩ := evalT_typeConversion.mp hv
      have hno' : shortShifts e = 0 := hno
      exact hval (by omega) a v (hleft.value hno' _ _ _ hea) ha
  | @toByte e he ih =>
    refine .unary he ih rfl hr rfl (Nat.le_max_left _ _) fun h hleft => ?_
    have hlen : _ = 2 + _ := hleft.length
    obtain ⟨cs, hcs, hcslen, hval⟩ := h.s2b (by omega)
    refine ⟨cs, hcs, ?_, fun hno st v st' hv => ?_⟩
    · show _ = 1 + shortShifts e
      omega
    · obtain ⟨a, hea, ha⟩ := evalT_typeConversion.mp hv
      have hno' : shortShifts e = 0 := hno
      exact hval (by omega) a v (hleft.value hno' _ _ _ hea) ha

end Runs

/-! ## What the machine leaves -/

/-- Through `n` bytes of code the machine pushes a value, and nothing else. -/
def LeavesValue (s : Storage) (n : Nat) (vm : Vmstate) (v : Val) : Prop :=
  ∃ vm', RunsThrough s n vm vm' ∧ OnStack vm vm.stackTop (valBytes v) vm'

/-- What a run leaves is what it leaves. -/
theorem leavesValue_iff {s : Storage} {n : Nat} {vm vm' : Vmstate} {cs : List VByte}
    (hrun : RunsThrough s n vm vm') (hcs : OnStack vm vm.stackTop cs vm') (v : Val) :
    LeavesValue s n vm v ↔ cs = valBytes v := by
  constructor
  · rintro ⟨vm'', hrun', hv⟩
    obtain rfl := hrun.unique hrun'
    exact hcs.unique hv
  · rintro rfl
    exact ⟨vm', hrun, hcs⟩

/-- **Arithmetic on the machine**: take the instructions that the code generator adds for an
    arithmetic expression, encoded anywhere in a program, and a machine at their first byte with room
    on its stack.  The machine pushes the value of the expression, in the bytes of its type, and
    changes nothing below, exactly when no shift in it has the type short. -/
theorem arithmetic_exact_iff {gVars lVars : VarAllocation} {t : Typ} {e : TExpression}
    (he : Arithmetic lVars t e) {acc acc' : BlockAccum} {st st' : BlockingState}
    (hbuild : buildIRExpression .value e acc st = .ok (acc', st')) {is : List IRInstruction}
    (hemit : acc'.revInstrs = is.reverse ++ acc.revInstrs) {code : List Bytecode}
    (hcode : outputBlock gVars lVars is = .ok code) {s : Storage} {vm : Vmstate}
    (hat : CodeAt s vm.ip code) (hr : vm.Ready) (hframe : InFrame lVars vm)
    (hroom : vm.stackTop + stackNeed e ≤ vm.stack + (STACK_SIZE - 2)) {v : Val} {m m' : MState Unit}
    (hv : evalT (frameMachine lVars vm) e m = some (v, m')) :
    typeOf e = t ∧ (valBytes v).length = typeBytes t ∧
      (LeavesValue s code.length vm v ↔ shortShifts e = 0) := by
  refine ⟨he.typeOf, value_bytes he hv, ?_⟩
  obtain rfl : is = valueInstrs e := by
    rw [buildIRExpression_arithmetic he] at hbuild
    obtain ⟨rfl, -⟩ := Prod.mk.inj (Except.ok.inj hbuild)
    exact List.reverse_injective (List.append_cancel_right hemit.symm)
  rw [outputBlock_eq] at hcode
  have hroom' : vm.stackTop + ([] : List VByte).length + stackNeed e ≤ vm.stack + (STACK_SIZE - 2) :=
    hroom
  obtain ⟨vm', cs, hrun, hcs, hleft⟩ := arithmetic_runs he hr hframe (.start vm) hroom' hcode hat
  rw [leavesValue_iff hrun hcs]
  constructor
  · rintro rfl
    have hlen := hleft.length
    rw [value_bytes he hv] at hlen
    omega
  · exact fun hno => hleft.value hno m v m' hv

/-- A machine whose method has one variable of type short, with the value 5. -/
def fiveMachine : Vmstate where
  state := .running
  delayEndMs := 0
  waitKey := 0
  triggerLkey := 0
  keyboardreport := .clear
  mousereport := ⟨0, 0, 0⟩
  program := 0
  code := 0
  ip := 0
  stackTop := 8
  currentFrame := 0
  stack := 0
  mem a := if a = 6 then 5 else 0
  writes := []

theorem fiveMachine_inFrame : InFrame [(0, 0, .short)] fiveMachine := by
  refine ⟨Nat.le_refl _, fun i slot t h => ?_⟩
  rw [List.lookup_cons] at h
  split at h
  · obtain ⟨rfl, rfl⟩ := Prod.mk.inj (Option.some.inj h)
    decide
  · exact (nomatch h)

theorem fiveMachine_ready : fiveMachine.Ready := ⟨rfl, by decide⟩

/-- `x + 1S` -/
theorem arithmetic_exact_five_plus_one :
    LeavesValue (fun a => [16, 31, 60][a]?) 3 fiveMachine (.short 6) := by
  have he : Arithmetic [(0, 0, .short)] .short
      (.binaryExpression .short (.localLoad .short 0) .add (.shortLiteral 1)) :=
    .binary rfl (.localLoad rfl (by decide)) (.shortLiteral 1)
  have hat : CodeAt (fun a => [16, 31, 60][a]?) fiveMachine.ip
      [.loadN .short 0, .sconstN 1, .arith .add .short] :=
    ⟨⟨_, rfl, rfl⟩, ⟨_, rfl, rfl⟩, ⟨_, rfl, rfl⟩, trivial⟩
  have hv : evalT (frameMachine [(0, 0, .short)] fiveMachine)
      (.binaryExpression .short (.localLoad .short 0) .add (.shortLiteral 1)) ⟨(), []⟩ =
        some (.short 6, ⟨(), []⟩) := rfl
  have hbuild : buildIRExpression .value
      (.binaryExpression .short (.localLoad .short 0) .add (.shortLiteral 1)) ⟨0, []⟩ emptyState =
        .ok (appendInstructions [.load 0, .sconst 1, .arith .short .add] ⟨0, []⟩, emptyState) := rfl
  have hcode : outputBlock [] [(0, 0, .short)] [.load 0, .sconst 1, .arith .short .add] =
      .ok [.loadN .short 0, .sconstN 1, .arith .add .short] := rfl
  exact (arithmetic_exact_iff he hbuild rfl hcode hat fiveMachine_ready fiveMachine_inFrame
    (by decide) hv).2.2.mpr rfl

/-- `x << 2S` is 20, but the machine leaves three bytes. -/
theorem short_shift_leaves_byte :
    buildIRExpression .value
        (.binaryExpression .short (.localLoad .short 0) .lshift (.shortLiteral 2)) ⟨0, []⟩ emptyState =
      .ok (appendInstructions [.load 0, .sconst 2, .arith .short .lshift] ⟨0, []⟩, emptyState) ∧
    outputBlock [] [(0, 0, .short)] [.load 0, .sconst 2, .arith .short .lshift] =
      .ok [.loadN .short 0, .sconstN 2, .arith .lshift .short] ∧
    CodeAt (fun a => [16, 32, 70][a]?) fiveMachine.ip
      [.loadN .short 0, .sconstN 2, .arith .lshift .short] ∧
    evalT (frameMachine [(0, 0, .short)] fiveMachine)
        (.binaryExpression .short (.localLoad .short 0) .lshift (.shortLiteral 2)) ⟨(), []⟩ =
      some (.short 20, ⟨(), []⟩) ∧
    ¬ LeavesValue (fun a => [16, 32, 70][a]?) 3 fiveMachine (.short 20) := by
  have hat : CodeAt (fun a => [16, 32, 70][a]?) fiveMachine.ip
      [.loadN .short 0, .sconstN 2, .arith .lshift .short] :=
    ⟨⟨_, rfl, rfl⟩, ⟨_, rfl, rfl⟩, ⟨_, rfl, rfl⟩, trivial⟩
  refine ⟨rfl, rfl, hat, rfl, ?_⟩
  have he : Arithmetic [(0, 0, .short)] .short
      (.binaryExpression .short (.localLoad .short 0) .lshift (.shortLiteral 2)) :=
    .binary rfl (.localLoad rfl (by decide)) (.shortLiteral 2)
  have hruns : Runs (fun a => [16, 32, 70][a]?) [] [(0, 0, .short)] fiveMachine .short
      (.binaryExpression .short (.localLoad .short 0) .lshift (.shortLiteral 2)) :=
    arithmetic_runs he fiveMachine_ready fiveMachine_inFrame
  have hcode : instrsCode [] [(0, 0, .short)] [.load 0, .sconst 2, .arith .short .lshift] =
      .ok [.loadN .short 0, .sconstN 2, .arith .lshift .short] := rfl
  obtain ⟨vm', cs, hrun, hcs, hleft⟩ := hruns (.start fiveMachine) (by decide) hcode hat
  intro hleaves
  have hlen : cs.length = 3 := hleft.length
  have hvalue : cs = valBytes (.short 20) := (leavesValue_iff hrun hcs _).mp hleaves
  rw [hvalue] at hlen
  exact absurd hlen (by decide)

end KeyboardFirmware.Vm
