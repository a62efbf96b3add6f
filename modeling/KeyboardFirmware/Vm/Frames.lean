/-
  The frame of a method in the memory of the machine.

  A machine `Displays` an environment when the slots of its frame and of its globals have the values
  and the rest is as it was when the method was entered; it `Carries` operands when these lie on the
  stack on top.  What an instruction does to the operands it does to the machine that carries them
  (`Frame.carries_act`, `Frame.carries_syscall`).
-/
import KeyboardFirmware.Vm.Operands

namespace KeyboardFirmware.Vm

open Compiler

/-! ## Values in memory -/

/-- The bytes of a value lie at an address. -/
def HoldsVal (mem : Nat → VByte) (a : Nat) (v : Val) : Prop :=
  ∀ i b, (valBytes v)[i]? = some b → mem (a + i) = b

theorem HoldsVal.congr {mem mem' : Nat → VByte} {a : Nat} {v : Val} (h : HoldsVal mem a v)
    (hsame : ∀ b, a ≤ b → b < a + typeBytes v.typ → mem' b = mem b) : HoldsVal mem' a v := by
  intro i b hi
  have hlt : i < (valBytes v).length := (List.getElem?_eq_some_iff.mp hi).1
  rw [length_valBytes] at hlt
  rw [hsame (a + i) (by omega) (by omega)]
  exact h i b hi

theorem pokeAll_mem (vs : List VByte) (vm : Vmstate) (a b : Nat) :
    (vm.pokeAll a vs).mem b = if a ≤ b ∧ b < a + vs.length then vs.getD (b - a) 0 else vm.mem b := by
  induction vs generalizing vm a with
  | nil =>
    rw [if_neg (by rw [List.length_nil]; omega)]
    rfl
  | cons v vs ih =>
    show ((vm.poke a v).pokeAll (a + 1) vs).mem b = _
    have hpoke : (vm.poke a v).mem b = if b = a then v else vm.mem b := rfl
    rw [ih, hpoke, List.length_cons]
    by_cases hba : b = a
    · subst hba
      rw [if_neg (by omega), if_pos rfl, if_pos (by omega), Nat.sub_self]
      rfl
    · rw [if_neg hba]
      by_cases hin : a + 1 ≤ b ∧ b < a + 1 + vs.length
      · obtain ⟨k, rfl⟩ : ∃ k, b = a + 1 + k := ⟨b - (a + 1), by omega⟩
        rw [if_pos hin, if_pos (by omega), show a + 1 + k - a = k + 1 by omega,
          Nat.add_sub_cancel_left, List.getD_cons_succ]
      · rw [if_neg hin, if_neg (by omega)]

theorem pokeAll_kept (vs : List VByte) (vm : Vmstate) (a : Nat) :
    { vm.pokeAll a vs with mem := vm.mem, writes := vm.writes } = vm := by
  induction vs generalizing vm a with
  | nil => rfl
  | cons v vs ih =>
    have h := congrArg (fun x : Vmstate => { x with mem := vm.mem, writes := vm.writes })
      (ih (vm.poke a v) (a + 1))
    exact h

/-- A value that is written is there, and nothing else has changed. -/
theorem holdsVal_pokeAll (v : Val) (vm : Vmstate) (a : Nat) :
    HoldsVal (vm.pokeAll a (valBytes v)).mem a v := by
  intro i b hi
  have hlt : i < (valBytes v).length := (List.getElem?_eq_some_iff.mp hi).1
  rw [pokeAll_mem, if_pos (by omega), Nat.add_sub_cancel_left, List.getD_eq_getElem?_getD, hi]
  rfl

variable {vm₀ vm vm1 : Vmstate} {base a : Nat} {bs cs : List VByte} {v : Val} {t : Typ}

/-- A value in memory below is pushed. -/
theorem OnStack.pushFrom (h : OnStack vm1 base bs vm) (hv : HoldsVal vm1.mem a v)
    (hbelow : a + typeBytes v.typ ≤ base + 1) :
    OnStack vm1 base (bs ++ valBytes v) (vm.pushFrom v.typ a) := by
  cases v with
  | byte x =>
    have hx : vm.mem a = x := (h.below a (Nat.le_of_succ_le_succ hbelow)).trans (hv 0 x rfl)
    show OnStack vm1 base _ (vm.pushByte (vm.mem a))
    rw [hx]
    exact h.pushByte x
  | short x =>
    have hle : a + 2 ≤ base + 1 := hbelow
    have hlo : vm.mem a = lowByte x := (h.below a (by omega)).trans (hv 0 _ rfl)
    have hhi : vm.mem (a + 1) = highByte x := (h.below (a + 1) (by omega)).trans (hv 1 _ rfl)
    have hx : vm.shortAt a = x := by rw [Vmstate.shortAt, hlo, hhi, shortOf_bytes]
    show OnStack vm1 base _ (vm.pushShort (vm.shortAt a))
    rw [hx]
    exact h.pushShort x
  | void =>
    show OnStack vm1 base _ vm
    rw [valBytes, List.append_nil]
    exact h

/-- A value on top is popped to memory below. -/
theorem OnStack.popTo (h : OnStack vm1 base (bs ++ valBytes v) vm)
    (hbelow : a + typeBytes v.typ ≤ base + 1) :
    OnStack (vm1.pokeAll a (valBytes v)) base bs (vm.popTo v.typ a) := by
  have hout : ∀ b, base < b → (vm.popTo v.typ a).mem b = vm.mem b := by
    intro b hb
    cases v with
    | byte x =>
      have hle : a + 1 ≤ base + 1 := hbelow
      exact if_neg (by omega)
    | short x =>
      have hle : a + 2 ≤ base + 1 := hbelow
      show (if b = a + 1 then _ else if b = a then _ else vm.mem b) = _
      rw [if_neg (by omega), if_neg (by omega)]
    | void => rfl
  have hin : ∀ b, (vm.popTo v.typ a).mem b =
      if a ≤ b ∧ b < a + (valBytes v).length then (valBytes v).getD (b - a) 0 else vm.mem b := by
    intro b
    cases v with
    | byte x =>
      show (if b = a then vm.topByte else vm.mem b) = _
      rw [h.topByte]
      by_cases hb : b = a
      · subst hb
        simp [valBytes]
      · rw [if_neg hb, if_neg (by rw [valBytes, List.length_singleton]; omega)]
    | short x =>
      show (if b = a + 1 then highByte vm.topShort else if b = a then lowByte vm.topShort
        else vm.mem b) = _
      rw [h.topShort_bytes]
      by_cases hb1 : b = a + 1
      · subst hb1
        simp [valBytes]
      · by_cases hb : b = a
        · subst hb
          simp [valBytes]
        · rw [if_neg hb1, if_neg hb,
            if_neg (by rw [valBytes, List.length_cons, List.length_singleton]; omega)]
    | void =>
      rw [if_neg (by rw [valBytes, List.length_nil]; omega)]
      rfl
  have hdrop := h.drop rfl
  have htop : (vm.popTo v.typ a).stackTop = (vm.drop (valBytes v).length).stackTop := by
    cases v <;> rfl
  have hcontrol : (vm.popTo v.typ a).control = vm.control := by
    cases v <;> rfl
  refine ⟨htop.trans hdrop.top, fun i x hi => ?_, fun b hb => ?_, ?_⟩
  · rw [hout _ (by omega)]
    exact hdrop.bytes i x hi
  · rw [hin, pokeAll_mem, h.below b hb]
  · rw [hcontrol, h.control]
    have hkept := pokeAll_kept (valBytes v) vm1 a
    exact (congrArg Vmstate.control hkept).symm

/-! ## Operands in memory -/

theorem OnStack.dup (h : OnStack vm1 base (bs ++ valBytes v) vm) (hv : v.typ ≠ .void) :
    OnStack vm1 base (bs ++ valBytes v ++ valBytes v) (vm.dup v.typ) := by
  cases v with
  | byte x =>
    show OnStack vm1 base _ (vm.pushByte vm.topByte)
    rw [h.topByte]
    exact h.pushByte x
  | short x =>
    show OnStack vm1 base _ (vm.pushShort vm.topShort)
    rw [h.topShort_bytes]
    exact h.pushShort x
  | void => exact absurd rfl hv

theorem OnStack.pop (h : OnStack vm1 base (bs ++ valBytes v) vm) (hv : v.typ ≠ .void) :
    OnStack vm1 base bs (vm.pop v.typ) := by
  cases v with
  | byte x => exact h.drop rfl
  | short x =>
    have hdrop := h.drop rfl
    rw [show (valBytes (.short x)).length = 1 + 1 from rfl, ← drop_drop] at hdrop
    exact hdrop
  | void => exact absurd rfl hv

theorem OnStack.byteOperator {x y z : VByte} {op : ArithOp} (h : OnStack vm1 base (bs ++ [x] ++ [y]) vm)
    (hv : arithVal op (.byte x) (.byte y) = some (.byte z)) :
    OnStack vm1 base (bs ++ [z]) (vm.arithByte op) := by
  have hy : vm.topByte = y := h.topByte
  have hx : (vm.drop 1).topByte = x := (h.drop rfl).topByte
  have hpush := ((h.drop rfl).drop rfl).pushByte z
  have hshape : vm.arithByte op = ((vm.drop 1).drop 1).pushByte z := by
    cases op <;> first
      | (obtain rfl := Val.byte.inj (Option.some.inj hv)
         simp only [Vmstate.arithByte, hx, hy])
      | cases hv
  rw [hshape]
  exact hpush

theorem OnStack.shortOperator {x y : VShort} {op : ArithOp}
    (h : OnStack vm1 base (bs ++ valBytes (.short x) ++ valBytes (.short y)) vm)
    (hv : arithVal op (.short x) (.short y) = some v) :
    OnStack vm1 base (bs ++ valBytes v) (vm.arithShort op) := by
  have hy : vm.topShort = y := h.topShort_bytes
  have hx : (vm.drop 2).topShort = x := (h.drop rfl).topShort_bytes
  have hdrop := (h.drop rfl).drop rfl
  have hbyte : ∀ z, v = .byte z → vm.arithShort op = ((vm.drop 2).drop 2).pushByte z := by
    rintro z rfl
    cases op <;> first
      | (obtain rfl := Val.byte.inj (Option.some.inj hv)
         simp only [Vmstate.arithShort, hx, hy])
      | cases hv
  have hshort : ∀ z, v = .short z → vm.arithShort op = ((vm.drop 2).drop 2).pushShort z := by
    rintro z rfl
    cases op <;> first
      | (obtain rfl := Val.short.inj (Option.some.inj hv)
         simp only [Vmstate.arithShort, hx, hy])
      | cases hv
  cases v with
  | byte z =>
    rw [hbyte z rfl]
    exact hdrop.pushByte z
  | short z =>
    rw [hshort z rfl]
    exact hdrop.pushShort z
  | void => cases op <;> cases hv

/-- An operator. -/
theorem OnStack.operate {op : ArithOp} (h : OnStack vm1 base bs vm)
    (hop : operate t op bs = some (cs, v)) : OnStack vm1 base (cs ++ valBytes v) (vm.arith op t) := by
  simp only [Vm.operate, Option.bind_eq_bind, Option.bind_eq_some_iff, Prod.exists] at hop
  obtain ⟨ds, b, hb, hop⟩ := hop
  obtain ⟨hbt, rfl⟩ := popVal_some hb
  split at hop
  · next hcomplement =>
    subst hcomplement
    obtain ⟨u, hu, hres⟩ := Option.map_eq_some_iff.mp hop
    obtain ⟨rfl, rfl⟩ := Prod.mk.inj hres
    have ht : t ≠ .void := by
      rintro rfl
      cases b with
      | byte | short => cases hbt
      | void => cases hu
    have hlen : (valBytes b).length = typeBytes t := by rw [length_valBytes, hbt]
    obtain ⟨cs', hcs', -, hval⟩ := h.complement ht hlen.ge
    rw [← hval hlen b u rfl hu]
    exact hcs'
  · simp only [Option.bind_eq_some_iff, Prod.exists] at hop
    obtain ⟨cs', a, ha, hop⟩ := hop
    obtain ⟨hat, rfl⟩ := popVal_some ha
    obtain ⟨u, hu, hres⟩ := Option.map_eq_some_iff.mp hop
    obtain ⟨rfl, rfl⟩ := Prod.mk.inj hres
    subst hat
    cases a with
    | byte x =>
      cases b with
      | byte y =>
        obtain ⟨z, rfl⟩ : ∃ z, u = .byte z := by
          cases op <;> first | exact ⟨_, (Option.some.inj hu).symm⟩ | cases hu
        exact h.byteOperator hu
      | short | void => cases hbt
    | short x =>
      cases b with
      | short y => exact h.shortOperator hu
      | byte | void => cases hbt
    | void =>
      cases b with
      | void => cases op <;> cases hu
      | byte | short => cases hbt

/-! ## The frame of a method -/

/-- The variables have their types, and their values lie in memory, by `base` and the slots. -/
def HoldsVars (vars : VarAllocation) (value : VariableID → Val) (mem : Nat → VByte) (base : Nat) :
    Prop :=
  ∀ i slot t, vars.lookup i = some (slot, t) →
    (value i).typ = t ∧ HoldsVal mem (base + slot) (value i)

/-- A machine and what it has shown of its reports. -/
structure Watched where
  vm : Vmstate
  shown : List Shown

namespace Frame

variable (F : Frame)

/-- Where a machine at the start of a method has its variables: the globals at the bottom of its stack,
    the locals in its frame, below the operands. -/
structure Layout (vm : Vmstate) : Prop where
  running : vm.state = .running
  room : vm.stackTop + F.room ≤ vm.stack + (STACK_SIZE - 2)
  frame : vm.stack ≤ vm.currentFrame
  top : vm.currentFrame + 6 ≤ vm.stackTop
  globals : ∀ {i slot t}, F.gVars.lookup i = some (slot, t) →
    t ≠ .void ∧ vm.stack + slot + typeBytes t ≤ vm.currentFrame
  locals : ∀ {i slot t}, F.lVars.lookup i = some (slot, t) →
    t ≠ .void ∧ vm.currentFrame + 6 + slot + typeBytes t ≤ vm.stackTop + 1
  apart : ∀ {i j slot slot' t t'}, i ≠ j → F.lVars.lookup i = some (slot, t) →
    F.lVars.lookup j = some (slot', t') → slot + typeBytes t ≤ slot' ∨ slot' + typeBytes t' ≤ slot

/-- An address in the slot of a local variable. -/
def InSlot (vm : Vmstate) (a : Nat) : Prop :=
  ∃ i slot t, F.lVars.lookup i = some (slot, t) ∧ vm.currentFrame + 6 + slot ≤ a ∧
    a < vm.currentFrame + 6 + slot + typeBytes t

/-- The machine displays the environment; but for this it is as `vm₀`. -/
structure Displays (vm₀ : Vmstate) (env : Env) (vm : Vmstate) : Prop where
  same : { vm with
    ip := vm₀.ip, mem := vm₀.mem, writes := vm₀.writes, keyboardreport := vm₀.keyboardreport,
    mousereport := vm₀.mousereport } = vm₀
  keyboard : vm.keyboardreport = env.keyboard
  mouse : vm.mousereport = ⟨env.buttons, 0, 0⟩
  locals : HoldsVars F.lVars (fun i => env.vars (.local i)) vm.mem (vm₀.currentFrame + 6)
  globals : HoldsVars F.gVars (fun i => env.vars (.global i)) vm.mem vm₀.stack
  elsewhere : ∀ a ≤ vm₀.stackTop, ¬ F.InSlot vm₀ a → vm.mem a = vm₀.mem a

variable {F} {env env' : Env} {w w' : Watched} {i : VariableID} {slot : Nat}

namespace Displays

theorem stack_eq (h : F.Displays vm₀ env vm) : vm.stack = vm₀.stack :=
  (congrArg Vmstate.stack h.same).trans rfl

theorem frame_eq (h : F.Displays vm₀ env vm) : vm.currentFrame = vm₀.currentFrame :=
  (congrArg Vmstate.currentFrame h.same).trans rfl

theorem top_eq (h : F.Displays vm₀ env vm) : vm.stackTop = vm₀.stackTop :=
  (congrArg Vmstate.stackTop h.same).trans rfl

theorem state_eq (h : F.Displays vm₀ env vm) : vm.state = vm₀.state :=
  (congrArg Vmstate.state h.same).trans rfl

theorem ready (h : F.Displays vm₀ env vm) (hl : F.Layout vm₀) : vm.Ready :=
  ⟨h.state_eq.trans hl.running, by
    rw [h.top_eq, h.stack_eq]
    exact (Nat.le_add_right _ _).trans hl.room⟩

/-- A local variable is given a value. -/
theorem write (h : F.Displays vm₀ env vm) (hl : F.Layout vm₀)
    (hslot : F.lVars.lookup i = some (slot, v.typ)) :
    F.Displays vm₀ (env.write (.local i) v)
      (vm.pokeAll (vm₀.currentFrame + 6 + slot) (valBytes v)) := by
  have hmem : ∀ b, ¬ (vm₀.currentFrame + 6 + slot ≤ b ∧
      b < vm₀.currentFrame + 6 + slot + typeBytes v.typ) →
      (vm.pokeAll (vm₀.currentFrame + 6 + slot) (valBytes v)).mem b = vm.mem b := by
    intro b hb
    rw [pokeAll_mem, length_valBytes, if_neg hb]
  have hkept := pokeAll_kept (valBytes v) vm (vm₀.currentFrame + 6 + slot)
  refine ⟨?_, ?_, ?_, fun j slot' t hj => ?_, fun j slot' t hj => ?_, fun b hb hno => ?_⟩
  · exact (congrArg (fun x : Vmstate => { x with
      ip := vm₀.ip, mem := vm₀.mem, writes := vm₀.writes, keyboardreport := vm₀.keyboardreport,
      mousereport := vm₀.mousereport }) hkept).trans h.same
  · exact (congrArg Vmstate.keyboardreport hkept).trans h.keyboard
  · exact (congrArg Vmstate.mousereport hkept).trans h.mouse
  · by_cases hij : j = i
    · subst hij
      obtain ⟨rfl, rfl⟩ := Prod.mk.inj (Option.some.inj (hslot.symm.trans hj))
      dsimp only
      rw [Env.write_self]
      exact ⟨rfl, holdsVal_pokeAll v vm _⟩
    · obtain ⟨htyp, hholds⟩ := h.locals j slot' t hj
      dsimp only
      rw [Env.write_of_ne env v fun heq => hij (Var.local.inj heq)]
      refine ⟨htyp, hholds.congr fun b hle hlt => hmem b ?_⟩
      have hapart := hl.apart hij hj hslot
      rw [htyp] at hlt
      omega
  · obtain ⟨htyp, hholds⟩ := h.globals j slot' t hj
    dsimp only
    rw [Env.write_of_ne env v fun heq => by cases heq]
    refine ⟨htyp, hholds.congr fun b hle hlt => hmem b ?_⟩
    have hbelow := (hl.globals hj).2
    rw [htyp] at hlt
    omega
  · rw [hmem b fun hin => hno ⟨i, slot, _, hslot, hin⟩]
    exact h.elsewhere b hb hno

end Displays

/-! ## A machine that carries operands -/

/-- The machine displays the environment, and the operands `bs` lie on top. -/
structure Carries (F : Frame) (vm₀ : Vmstate) (env : Env) (bs : List VByte) (w : Watched) : Prop where
  displays : ∃ vm1, F.Displays vm₀ env vm1 ∧ OnStack vm1 vm₀.stackTop bs w.vm
  shown : w.shown = env.shown

namespace Carries

theorem ready (h : F.Carries vm₀ env bs w) (hl : F.Layout vm₀) (hroom : F.Room bs.length) :
    w.vm.Ready := by
  obtain ⟨vm1, hvars, hstack⟩ := h.displays
  refine hstack.ready (hvars.ready hl) ?_
  rw [hvars.stack_eq]
  exact (Nat.add_le_add_left hroom _).trans hl.room

/-- An instruction that only works on the operands. -/
theorem operands (h : F.Carries vm₀ env bs w) {vm : Vmstate}
    (heff : ∀ vm1, OnStack vm1 vm₀.stackTop bs w.vm → OnStack vm1 vm₀.stackTop cs vm) :
    F.Carries vm₀ env cs { w with vm := vm } := by
  obtain ⟨vm1, hvars, hstack⟩ := h.displays
  exact ⟨⟨vm1, hvars, heff vm1 hstack⟩, h.shown⟩

/-- A local variable is pushed. -/
theorem load (h : F.Carries vm₀ env bs w) (hl : F.Layout vm₀)
    (hslot : F.lVars.lookup i = some (slot, t)) :
    F.Carries vm₀ env (bs ++ valBytes (env.vars (.local i)))
      { w with vm := effect F.gVars F.lVars (.load i) w.vm } := by
  obtain ⟨vm1, hvars, hstack⟩ := h.displays
  obtain ⟨rfl, hholds⟩ := hvars.locals i slot t hslot
  obtain ⟨hvoid, hbelow⟩ := hl.locals hslot
  have hpos := typeBytes_pos hvoid
  have hframe := hl.frame
  have hready : vm₀.stackTop + F.room ≤ vm₀.stack + (96 - 2) := hl.room
  have haddr : w.vm.localAddr (slotByte slot) = vm₀.currentFrame + 6 + slot := by
    rw [localAddr_slotByte (by omega), hstack.frame_eq, hvars.frame_eq]
  refine ⟨⟨vm1, hvars, ?_⟩, h.shown⟩
  simp only [effect, hslot, Option.elim_some, haddr]
  exact hstack.pushFrom hholds (by omega)

/-- A global variable is pushed. -/
theorem gload (h : F.Carries vm₀ env bs w) (hl : F.Layout vm₀)
    (hslot : F.gVars.lookup i = some (slot, t)) :
    F.Carries vm₀ env (bs ++ valBytes (env.vars (.global i)))
      { w with vm := effect F.gVars F.lVars (.gload i) w.vm } := by
  obtain ⟨vm1, hvars, hstack⟩ := h.displays
  obtain ⟨rfl, hholds⟩ := hvars.globals i slot t hslot
  obtain ⟨hvoid, hbelow⟩ := hl.globals hslot
  dsimp only at hbelow
  have hpos := typeBytes_pos hvoid
  have htop := hl.top
  have hready : vm₀.stackTop + F.room ≤ vm₀.stack + (96 - 2) := hl.room
  have haddr : w.vm.globalAddr (slotByte slot) = vm₀.stack + slot := by
    rw [globalAddr_slotByte (by omega), hstack.stack_eq, hvars.stack_eq]
  refine ⟨⟨vm1, hvars, ?_⟩, h.shown⟩
  simp only [effect, hslot, Option.elim_some, haddr]
  exact hstack.pushFrom hholds (by omega)

/-- A local variable is given the value on top. -/
theorem store (h : F.Carries vm₀ env (bs ++ valBytes v) w) (hl : F.Layout vm₀)
    (hslot : F.lVars.lookup i = some (slot, v.typ)) :
    F.Carries vm₀ (env.write (.local i) v) bs
      { w with vm := effect F.gVars F.lVars (.store i) w.vm } := by
  obtain ⟨vm1, hvars, hstack⟩ := h.displays
  obtain ⟨hvoid, hbelow⟩ := hl.locals hslot
  have hpos := typeBytes_pos hvoid
  have hframe := hl.frame
  have hready : vm₀.stackTop + F.room ≤ vm₀.stack + (96 - 2) := hl.room
  have haddr : w.vm.localAddr (slotByte slot) = vm₀.currentFrame + 6 + slot := by
    rw [localAddr_slotByte (by omega), hstack.frame_eq, hvars.frame_eq]
  refine ⟨⟨_, hvars.write hl hslot, ?_⟩, h.shown⟩
  simp only [effect, hslot, Option.elim_some, haddr]
  exact hstack.popTo (by omega)

end Carries

/-- **What a straight instruction does** to the operands it does to the machine. -/
theorem carries_act (hl : F.Layout vm₀) {i : IRInstruction} (hi : Straight i = true) {o : Operands}
    (hact : F.act i ⟨env, bs, none⟩ = some o) (h : F.Carries vm₀ env bs w) :
    o.left = none ∧
      F.Carries vm₀ o.env o.stack { w with vm := effect F.gVars F.lVars i w.vm } := by
  cases i with
  | store i =>
    simp only [act, Option.bind_eq_bind, Option.bind_eq_some_iff, Prod.exists] at hact
    obtain ⟨slot, t, hslot, cs, v, hpop, hact⟩ := hact
    obtain rfl := Option.some.inj hact
    obtain ⟨rfl, rfl⟩ := popVal_some hpop
    exact ⟨rfl, h.store hl hslot⟩
  | load i =>
    simp only [act, Option.bind_eq_bind, Option.bind_eq_some_iff, Prod.exists] at hact
    obtain ⟨slot, t, hslot, -, -, hact⟩ := hact
    obtain rfl := Option.some.inj hact
    exact ⟨rfl, h.load hl hslot⟩
  | gload i =>
    simp only [act, Option.bind_eq_bind, Option.bind_eq_some_iff, Prod.exists] at hact
    obtain ⟨slot, t, hslot, -, -, hact⟩ := hact
    obtain rfl := Option.some.inj hact
    exact ⟨rfl, h.gload hl hslot⟩
  | bconst v =>
    obtain rfl := Option.some.inj hact
    exact ⟨rfl, h.operands fun _ hs => hs.pushByte v⟩
  | sconst v =>
    obtain rfl := Option.some.inj hact
    exact ⟨rfl, h.operands fun _ hs => hs.pushShort v⟩
  | dup t =>
    simp only [act, Option.bind_eq_bind, Option.bind_eq_some_iff, Prod.exists] at hact
    obtain ⟨⟨⟩, hguard, cs, v, hpop, hact⟩ := hact
    obtain rfl := Option.some.inj hact
    obtain ⟨rfl, rfl⟩ := popVal_some hpop
    exact ⟨rfl, h.operands fun _ hs => hs.dup (by simpa [guard] using hguard)⟩
  | pop t =>
    simp only [act, Option.bind_eq_bind, Option.bind_eq_some_iff, Prod.exists] at hact
    obtain ⟨⟨⟩, hguard, cs, v, hpop, hact⟩ := hact
    obtain rfl := Option.some.inj hact
    obtain ⟨rfl, rfl⟩ := popVal_some hpop
    exact ⟨rfl, h.operands fun _ hs => hs.pop (by simpa [guard] using hguard)⟩
  | arith t op =>
    simp only [act, Option.bind_eq_bind, Option.bind_eq_some_iff, Prod.exists] at hact
    obtain ⟨cs, v, hop, hact⟩ := hact
    obtain rfl := Option.some.inj hact
    exact ⟨rfl, h.operands fun _ hs => hs.operate hop⟩
  | b2s =>
    simp only [act, Option.bind_eq_bind, Option.bind_eq_some_iff, Prod.exists] at hact
    obtain ⟨cs, v, hpop, u, hu, hact⟩ := hact
    obtain rfl := Option.some.inj hact
    obtain ⟨hv, rfl⟩ := popVal_some hpop
    have hlen : (valBytes v).length = 1 := by
      rw [length_valBytes, hv]
      rfl
    refine ⟨rfl, h.operands fun _ hs => ?_⟩
    obtain ⟨ds, hds, -, hval⟩ := hs.b2s hlen.ge
    show OnStack _ _ (cs ++ valBytes u) _
    rw [← hval hlen v u rfl hu]
    exact hds
  | s2b =>
    simp only [act, Option.bind_eq_bind, Option.bind_eq_some_iff, Prod.exists] at hact
    obtain ⟨cs, v, hpop, u, hu, hact⟩ := hact
    obtain rfl := Option.some.inj hact
    obtain ⟨hv, rfl⟩ := popVal_some hpop
    have hlen : (valBytes v).length = 2 := by
      rw [length_valBytes, hv]
      rfl
    refine ⟨rfl, h.operands fun _ hs => ?_⟩
    obtain ⟨ds, hds, -, hval⟩ := hs.s2b hlen.ge
    show OnStack _ _ (cs ++ valBytes u) _
    rw [← hval hlen v u rfl hu]
    exact hds
  | gstore | swap => cases hact
  | call | «return» | exit | syscall | dummy => cases hi

end Frame

/-! ## Reports -/

/-- The report that a machine waits with. -/
def Vmstate.waiting (vm : Vmstate) : List Shown :=
  match vm.state with
  | .waitReport => [.keyboard vm.keyboardreport]
  | .waitMouseReport => [.mouse vm.mousereport]
  | _ => []

/-- The machine when it has been asked for that. -/
def Vmstate.asked (vm : Vmstate) : Vmstate :=
  match vm.state with
  | .waitReport => { vm with state := .running }
  | .waitMouseReport =>
    { vm with state := .running, mousereport := { vm.mousereport with x := 0, y := 0 } }
  | _ => vm

/-- A system call that changes a report, with the wait behind it. -/
def Watched.report (w : Watched) (op : SyscallOp) : Watched :=
  let vm := w.vm.doSyscall idleHardware op
  ⟨vm.asked, w.shown ++ vm.waiting⟩

/-- No wait. -/
theorem report_nothing {w : Watched} {op : SyscallOp} {vm' : Vmstate} (hrun : vm'.state = .running)
    (h : w.vm.doSyscall idleHardware op = vm') : w.report op = ⟨vm', w.shown⟩ := by
  show Watched.mk (w.vm.doSyscall idleHardware op).asked
    (w.shown ++ (w.vm.doSyscall idleHardware op).waiting) = _
  rw [h, Vmstate.asked, Vmstate.waiting, hrun, List.append_nil]

/-- A wait with the keyboard report is over at once. -/
theorem report_keyboard {w : Watched} {op : SyscallOp} {vm' : Vmstate} (hrun : vm'.state = .running)
    (h : w.vm.doSyscall idleHardware op = { vm' with state := .waitReport }) :
    w.report op = ⟨vm', w.shown ++ [.keyboard vm'.keyboardreport]⟩ := by
  have hsame : { vm' with state := .running } = vm' := by rw [← hrun]
  show Watched.mk (w.vm.doSyscall idleHardware op).asked
    (w.shown ++ (w.vm.doSyscall idleHardware op).waiting) = _
  rw [h]
  exact congrArg (fun vm => Watched.mk vm _) hsame

/-- So is one with the mouse report. -/
theorem report_mouse {w : Watched} {op : SyscallOp} {vm' : Vmstate} {r : MouseReport}
    (hrun : vm'.state = .running)
    (h : w.vm.doSyscall idleHardware op = { vm' with mousereport := r, state := .waitMouseReport }) :
    w.report op = ⟨{ vm' with mousereport := ⟨r.button, 0, 0⟩ }, w.shown ++ [.mouse r]⟩ := by
  have hsame : { vm' with mousereport := ⟨r.button, 0, 0⟩, state := .running } =
      { vm' with mousereport := ⟨r.button, 0, 0⟩ } := by rw [← hrun]
  show Watched.mk (w.vm.doSyscall idleHardware op).asked
    (w.shown ++ (w.vm.doSyscall idleHardware op).waiting) = _
  rw [h]
  exact congrArg (fun vm => Watched.mk vm _) hsame

namespace Frame

variable {F : Frame} {env env' : Env} {w : Watched}

namespace Carries

/-- The machine's reports are those of the environment. -/
theorem reports (h : F.Carries vm₀ env bs w) :
    w.vm.keyboardreport = env.keyboard ∧ w.vm.mousereport = ⟨env.buttons, 0, 0⟩ := by
  obtain ⟨vm1, hvars, hstack⟩ := h.displays
  have hkeyboard : w.vm.keyboardreport = vm1.keyboardreport :=
    (congrArg Vmstate.keyboardreport hstack.control).trans rfl
  have hmouse : w.vm.mousereport = vm1.mousereport :=
    (congrArg Vmstate.mousereport hstack.control).trans rfl
  exact ⟨hkeyboard.trans hvars.keyboard, hmouse.trans hvars.mouse⟩

/-- Operands are dropped, and the reports are given new values. -/
theorem setReports (h : F.Carries vm₀ env (bs ++ cs) w) {n : Nat} (hn : cs.length = n)
    (keyboard : ExtraKeyboardReport) (buttons : Word8) (out : List Shown) :
    F.Carries vm₀
      { env with keyboard := keyboard, buttons := buttons, shown := env.shown ++ out } bs
      ⟨{ w.vm.drop n with keyboardreport := keyboard, mousereport := ⟨buttons, 0, 0⟩ },
        w.shown ++ out⟩ := by
  obtain ⟨vm1, hvars, hstack⟩ := h.displays
  have hdrop := hstack.drop hn
  refine ⟨⟨{ vm1 with keyboardreport := keyboard, mousereport := ⟨buttons, 0, 0⟩ }, ?_, ?_⟩,
    congrArg (· ++ out) h.shown⟩
  · exact { hvars with same := hvars.same, keyboard := rfl, mouse := rfl }
  · have hcontrol := congrArg (fun x : Vmstate =>
      { x with keyboardreport := keyboard, mousereport := ⟨buttons, 0, 0⟩ }) hdrop.control
    exact ⟨hdrop.top, hdrop.bytes, hdrop.below, hcontrol⟩

/-- A system call that changes the keyboard report. -/
theorem showKeyboard {op : SyscallOp} {key : VByte} {r : ExtraKeyboardReport}
    (h : F.Carries vm₀ env (bs ++ [key]) w) (hrun : w.vm.state = .running)
    (hop : w.vm.doSyscall idleHardware op =
      { w.vm.drop 1 with keyboardreport := r, state := .waitReport }) :
    F.Carries vm₀ (env.showKeyboard r) bs (w.report op) := by
  have hset := h.setReports rfl r env.buttons [.keyboard r]
  have hmouse : ({ w.vm.drop 1 with keyboardreport := r } : Vmstate).mousereport = ⟨env.buttons, 0, 0⟩ :=
    h.reports.2
  rw [report_keyboard (show ({ w.vm.drop 1 with keyboardreport := r } : Vmstate).state = _ from hrun) hop]
  rw [← hmouse] at hset
  exact hset

/-- A system call that changes the mouse report. -/
theorem showMouse {op : SyscallOp} {r : MouseReport} {n : Nat} (hn : cs.length = n)
    (h : F.Carries vm₀ env (bs ++ cs) w) (hrun : w.vm.state = .running)
    (hop : w.vm.doSyscall idleHardware op =
      { w.vm.drop n with mousereport := r, state := .waitMouseReport }) :
    F.Carries vm₀ (env.showMouse r) bs (w.report op) := by
  have hset := h.setReports hn w.vm.keyboardreport r.button [.mouse r]
  have henv : { env with
      keyboard := w.vm.keyboardreport, buttons := r.button, shown := env.shown ++ [.mouse r] } =
      env.showMouse r := by
    rw [h.reports.1]
    rfl
  rw [report_mouse (show (w.vm.drop n).state = _ from hrun) hop, ← henv]
  exact hset

end Carries

/-- **A system call** that changes a report. -/
theorem carries_syscall (hl : F.Layout vm₀) {op : SyscallOp} {args : List Val}
    (h : F.Carries vm₀ env (bs ++ args.flatMap valBytes) w)
    (hroom : F.Room (bs ++ args.flatMap valBytes).length) (hop : env.syscall op args = some (v, env')) :
    op ∈ Vmstate.reportOps ∧ F.Carries vm₀ env' bs (w.report op) := by
  obtain ⟨hkeyboard, hmouse⟩ := h.reports
  have hrun := (h.ready hl hroom).running
  obtain ⟨vm1, hvars, hstack⟩ := h.displays
  unfold Env.syscall at hop
  split at hop
  · next key =>
    obtain ⟨rfl, rfl⟩ := Prod.mk.inj (Option.some.inj hop)
    have hkey : w.vm.topByte = key := hstack.topByte
    refine ⟨by decide, ?_⟩
    by_cases hbig : (0xe8 : Word8) ≤ key
    · have hsys : w.vm.doSyscall idleHardware .pressKey = w.vm.drop 1 := by
        show ite _ _ _ = _
        rw [hkey, if_pos hbig]
      rw [if_pos hbig, report_nothing (show (w.vm.drop 1).state = _ from hrun) hsys]
      exact ⟨⟨vm1, hvars, hstack.drop rfl⟩, h.shown⟩
    · rw [if_neg hbig]
      refine h.showKeyboard hrun ?_
      show ite _ _ _ = _
      rw [hkey, if_neg hbig, ← hkeyboard]
      rfl
  · next key =>
    obtain ⟨rfl, rfl⟩ := Prod.mk.inj (Option.some.inj hop)
    have hkey : w.vm.topByte = key := hstack.topByte
    refine ⟨by decide, h.showKeyboard hrun ?_⟩
    rw [← hkey, ← hkeyboard]
    rfl
  · next mask =>
    obtain ⟨rfl, rfl⟩ := Prod.mk.inj (Option.some.inj hop)
    have hmask : w.vm.topByte = mask := hstack.topByte
    refine ⟨by decide, h.showMouse rfl hrun ?_⟩
    show { w.vm.drop 1 with
      mousereport := { w.vm.mousereport with button := w.vm.mousereport.button ||| (w.vm.topByte &&& 0x1f) }
      state := .waitMouseReport } = _
    rw [hmask, hmouse]
    rfl
  · next mask =>
    obtain ⟨rfl, rfl⟩ := Prod.mk.inj (Option.some.inj hop)
    have hmask : w.vm.topByte = mask := hstack.topByte
    refine ⟨by decide, h.showMouse rfl hrun ?_⟩
    show { w.vm.drop 1 with
      mousereport := { w.vm.mousereport with button := w.vm.mousereport.button &&& ~~~(w.vm.topByte &&& 0x1f) }
      state := .waitMouseReport } = _
    rw [hmask, hmouse]
    rfl
  · next x y =>
    obtain ⟨rfl, rfl⟩ := Prod.mk.inj (Option.some.inj hop)
    have hstack' : OnStack vm1 vm₀.stackTop ((bs ++ [x]) ++ [y]) w.vm := by
      rw [List.append_assoc]
      exact hstack
    have hy : w.vm.topByte = y := hstack'.topByte
    have hx : (w.vm.drop 1).topByte = x := (hstack'.drop rfl).topByte
    refine ⟨by decide, h.showMouse rfl hrun ?_⟩
    show { (w.vm.drop 1).drop 1 with
      mousereport := { w.vm.mousereport with x := (w.vm.drop 1).topByte, y := w.vm.topByte }
      state := .waitMouseReport } = _
    rw [hx, hy, hmouse]
    rfl
  · cases hop

end Frame

end KeyboardFirmware.Vm
