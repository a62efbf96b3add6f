/-
  An operand machine between the source and the virtual machine.

  `Env` is what the expressions of a method can see: variables, the machine's share of the two reports,
  and what it has shown of them.  `Operands` adds the bytes that the code of a method keeps on the stack.
  The instructions of a block work on these alone, with neither addresses nor code (`Frame.exec`);
  where the machine would read below its operands, or write above the room it has, there is no step.
-/
import KeyboardFirmware.Vm.Shown
import KeyboardFirmware.Vm.Comparison
import KeyboardFirmware.Compiler.Loops
import KeyboardFirmware.Compiler.MissingReturn
import KeyboardFirmware.Compiler.Meaning

namespace KeyboardFirmware.Vm

open Compiler Lib

/-! ## Environments -/

structure Env where
  vars : Var → Val
  keyboard : ExtraKeyboardReport
  buttons : Word8
  shown : List Shown

namespace Env

def write (env : Env) (x : Var) (v : Val) : Env := { env with vars := Function.update env.vars x v }

theorem write_self (env : Env) (x : Var) (v : Val) : (env.write x v).vars x = v :=
  Function.update_self ..

theorem write_of_ne (env : Env) {x y : Var} (v : Val) (h : y ≠ x) :
    (env.write x v).vars y = env.vars y := Function.update_of_ne h ..

def showKeyboard (env : Env) (report : ExtraKeyboardReport) : Env :=
  { env with keyboard := report, shown := env.shown ++ [.keyboard report] }

/-- The buttons stay pressed, a movement is reported once. -/
def showMouse (env : Env) (report : MouseReport) : Env :=
  { env with buttons := report.button, shown := env.shown ++ [.mouse report] }

/-- The system calls that change a report. -/
def syscall (env : Env) : SyscallOp → List Val → Option (Val × Env)
  | .pressKey, [.byte key] =>
    some (.void, if (0xe8 : Word8) ≤ key then env else env.showKeyboard (env.keyboard.add key))
  | .releaseKey, [.byte key] => some (.void, env.showKeyboard (env.keyboard.remove key))
  | .pressMouseButtons, [.byte mask] =>
    some (.void, env.showMouse ⟨env.buttons ||| (mask &&& 0x1f), 0, 0⟩)
  | .releaseMouseButtons, [.byte mask] =>
    some (.void, env.showMouse ⟨env.buttons &&& ~~~(mask &&& 0x1f), 0, 0⟩)
  | .moveMouse, [.byte x, .byte y] => some (.void, env.showMouse ⟨env.buttons, x, y⟩)
  | _, _ => none

end Env

/-- Expressions over environments; what a call does is a parameter. -/
def envMachine (call : Env → MethodID → List Val → Option (Val × Env)) : Machine Env where
  load env x _ := env.vars x
  store env x v := env.write x v
  call := call
  syscall := Env.syscall

theorem length_valBytes (v : Val) : (valBytes v).length = typeBytes v.typ := by
  cases v <;> rfl

/-! ## Bytes of operands -/

/-- The last bytes, and those below. -/
def popBytes (n : Nat) (bs : List VByte) : Option (List VByte × List VByte) :=
  if n ≤ bs.length then some (bs.take (bs.length - n), bs.drop (bs.length - n)) else none

/-- The value of a type that some bytes are. -/
def valOf : Typ → List VByte → Option Val
  | .byte, [x] => some (.byte x)
  | .short, [lo, hi] => some (.short (shortOf lo hi))
  | .void, [] => some .void
  | _, _ => none

/-- The value on top. -/
def popVal (t : Typ) (bs : List VByte) : Option (List VByte × Val) := do
  let (bs, cs) ← popBytes (typeBytes t) bs
  let v ← valOf t cs
  pure (bs, v)

/-- The values on top, the last one uppermost. -/
def popVals : List Typ → List VByte → Option (List VByte × List Val)
  | [], bs => some (bs, [])
  | t :: ts, bs => do
    let (bs, vs) ← popVals ts bs
    let (bs, v) ← popVal t bs
    pure (bs, v :: vs)

variable {bs cs : List VByte} {v : Val} {vs : List Val} {t : Typ} {ts : List Typ} {n : Nat}

theorem popBytes_append (h : cs.length = n) : popBytes n (bs ++ cs) = some (bs, cs) := by
  have hsub : (bs ++ cs).length - n = bs.length := by
    rw [List.length_append]
    omega
  rw [popBytes, if_pos (by rw [List.length_append]; omega), hsub, List.take_left, List.drop_left]

theorem popBytes_some {ds : List VByte} (h : popBytes n bs = some (cs, ds)) : bs = cs ++ ds := by
  unfold popBytes at h
  split at h
  · obtain ⟨rfl, rfl⟩ := Prod.mk.inj (Option.some.inj h)
    exact (List.take_append_drop _ _).symm
  · cases h

theorem valOf_valBytes (v : Val) : valOf v.typ (valBytes v) = some v := by
  cases v with
  | byte | void => rfl
  | short x =>
    show some (Val.short (shortOf (lowByte x) (highByte x))) = _
    rw [shortOf_bytes]

theorem valOf_some (h : valOf t cs = some v) : v.typ = t ∧ cs = valBytes v := by
  cases t with
  | byte =>
    rcases cs with _ | ⟨x, _ | ⟨y, cs⟩⟩
    · cases h
    · obtain rfl := Option.some.inj h
      exact ⟨rfl, rfl⟩
    · cases h
  | short =>
    rcases cs with _ | ⟨lo, _ | ⟨hi, _ | ⟨x, cs⟩⟩⟩
    · cases h
    · cases h
    · obtain rfl := Option.some.inj h
      refine ⟨rfl, ?_⟩
      rw [valBytes, lowByte_shortOf, highByte_shortOf]
    · cases h
  | void =>
    rcases cs with _ | ⟨x, cs⟩
    · obtain rfl := Option.some.inj h
      exact ⟨rfl, rfl⟩
    · cases h

theorem popVal_append (bs : List VByte) (v : Val) : popVal v.typ (bs ++ valBytes v) = some (bs, v) := by
  simp only [popVal, popBytes_append (length_valBytes v), valOf_valBytes, Option.bind_eq_bind,
    Option.bind_some]
  rfl

theorem popVal_some (h : popVal t bs = some (cs, v)) : v.typ = t ∧ bs = cs ++ valBytes v := by
  simp only [popVal, Option.bind_eq_bind, Option.bind_eq_some_iff, Prod.exists] at h
  obtain ⟨bs', cs', hpop, u, hu, h⟩ := h
  obtain ⟨rfl, rfl⟩ := Prod.mk.inj (Option.some.inj h)
  obtain rfl := popBytes_some hpop
  obtain ⟨ht, rfl⟩ := valOf_some hu
  exact ⟨ht, rfl⟩

theorem popVals_append (bs : List VByte) (vs : List Val) :
    popVals (vs.map Val.typ) (bs ++ vs.flatMap valBytes) = some (bs, vs) := by
  induction vs generalizing bs with
  | nil => rw [List.flatMap_nil, List.append_nil, List.map_nil, popVals]
  | cons v vs ih =>
    simp only [List.map_cons, List.flatMap_cons, popVals, ← List.append_assoc, ih, Option.bind_eq_bind,
      Option.bind_some, popVal_append]
    rfl

theorem popVals_some (h : popVals ts bs = some (cs, vs)) :
    vs.map Val.typ = ts ∧ bs = cs ++ vs.flatMap valBytes := by
  induction ts generalizing cs vs with
  | nil =>
    obtain ⟨rfl, rfl⟩ := Prod.mk.inj (Option.some.inj h)
    exact ⟨rfl, (List.append_nil _).symm⟩
  | cons t ts ih =>
    simp only [popVals, Option.bind_eq_bind, Option.bind_eq_some_iff, Prod.exists] at h
    obtain ⟨bs1, vs1, hvs, bs2, v, hv, h⟩ := h
    obtain ⟨rfl, rfl⟩ := Prod.mk.inj (Option.some.inj h)
    obtain ⟨rfl, rfl⟩ := ih hvs
    obtain ⟨rfl, rfl⟩ := popVal_some hv
    exact ⟨rfl, by rw [List.flatMap_cons, List.append_assoc]⟩

/-! ## Instructions -/

/-- The types of the arguments of a method, and of its value. -/
abbrev Signatures := MethodID → Option (List Typ × Typ)

/-- A method that has been entered: the slots of its variables, the methods it can call with the bytes
    that these need above their arguments, what a call does, and the room above the frame. -/
structure Frame where
  gVars : VarAllocation
  lVars : VarAllocation
  sig : Signatures
  callRoom : MethodID → Nat
  room : Nat
  call : Env → MethodID → List Val → Option (Val × Env)
  called : ∀ {env env' : Env} {i : MethodID} {ts : List Typ} {t : Typ} {vs : List Val} {v : Val},
    sig i = some (ts, t) → vs.map Val.typ = ts → call env i vs = some (v, env') →
    v.typ = t ∧ env'.vars = env.vars

/-- A method at work: what it sees, the bytes of its operands from the lowest one on, and the
    instruction it has been left with. -/
structure Operands where
  env : Env
  stack : List VByte
  left : Option IRInstruction

/-- A binary operator of the machine. -/
def arithVal : ArithOp → Val → Val → Option Val
  | .cmp, .byte x, .byte y => some (.byte (vmCmp x y))
  | .cmp, .short x, .short y => some (.byte (vmCmp x y))
  | .lshift, .byte x, .byte y => some (.byte (vmLshift x y))
  | .rshift, .byte x, .byte y => some (.byte (vmRshift x y))
  -- the count of a shift is a byte
  | .lshift, .short _, .short _ | .rshift, .short _, .short _ => none
  | .complement, _, _ => none
  | op, .byte x, .byte y => some (.byte (Vmstate.binaryOp op x y))
  | op, .short x, .short y => some (.short (Vmstate.binaryOp op x y))
  | _, _, _ => none

/-- An operator takes its operands from the stack. -/
def operate (t : Typ) (op : ArithOp) (bs : List VByte) : Option (List VByte × Val) := do
  let (bs, b) ← popVal t bs
  if op = .complement then (prefixVal .complement b).map (bs, ·)
  else
    let (bs, a) ← popVal t bs
    (arithVal op a b).map (bs, ·)

/-- The types of the arguments of a system call that changes a report. -/
def reportArgs : SyscallOp → List Typ
  | .moveMouse => [.byte, .byte]
  | _ => [.byte]

theorem syscall_spec {env env' : Env} {op : SyscallOp} (h : env.syscall op vs = some (v, env')) :
    vs.map Val.typ = reportArgs op ∧ v = .void ∧ env'.vars = env.vars := by
  unfold Env.syscall at h
  split at h
  · obtain ⟨rfl, rfl⟩ := Prod.mk.inj (Option.some.inj h)
    refine ⟨rfl, rfl, ?_⟩
    split <;> rfl
  · obtain ⟨rfl, rfl⟩ := Prod.mk.inj (Option.some.inj h)
    exact ⟨rfl, rfl, rfl⟩
  · obtain ⟨rfl, rfl⟩ := Prod.mk.inj (Option.some.inj h)
    exact ⟨rfl, rfl, rfl⟩
  · obtain ⟨rfl, rfl⟩ := Prod.mk.inj (Option.some.inj h)
    exact ⟨rfl, rfl, rfl⟩
  · obtain ⟨rfl, rfl⟩ := Prod.mk.inj (Option.some.inj h)
    exact ⟨rfl, rfl, rfl⟩
  · cases h

namespace Operands

variable (o : Operands)

def push (v : Val) : Operands := { o with stack := o.stack ++ valBytes v }

end Operands

namespace Frame

variable (F : Frame)

/-- The machine can execute the next instruction of the method. -/
def Open (o : Operands) : Prop := o.stack.length ≤ F.room ∧ o.left = none

instance (o : Operands) : Decidable (F.Open o) := inferInstanceAs (Decidable (_ ∧ _))

/-- What an instruction does. -/
def act (i : IRInstruction) (o : Operands) : Option Operands :=
  match i with
  | .store i => do
    let (_, t) ← F.lVars.lookup i
    let (bs, v) ← popVal t o.stack
    pure { o with env := o.env.write (.local i) v, stack := bs }
  | .load i => do
    let (_, t) ← F.lVars.lookup i
    guard ((o.env.vars (.local i)).typ = t)
    pure (o.push (o.env.vars (.local i)))
  | .gload i => do
    let (_, t) ← F.gVars.lookup i
    guard ((o.env.vars (.global i)).typ = t)
    pure (o.push (o.env.vars (.global i)))
  | .bconst v => some (o.push (.byte v))
  | .sconst v => some (o.push (.short v))
  | .dup t => do
    guard (t ≠ .void)
    let (_, v) ← popVal t o.stack
    pure (o.push v)
  | .pop t => do
    guard (t ≠ .void)
    let (bs, _) ← popVal t o.stack
    pure { o with stack := bs }
  | .arith t op => do
    let (bs, v) ← operate t op o.stack
    pure ({ o with stack := bs }.push v)
  | .b2s => do
    let (bs, v) ← popVal .byte o.stack
    let u ← convertVal .short v
    pure ({ o with stack := bs }.push u)
  | .s2b => do
    let (bs, v) ← popVal .short o.stack
    let u ← convertVal .byte v
    pure ({ o with stack := bs }.push u)
  | .call i => do
    let (ts, _) ← F.sig i
    guard (o.stack.length + F.callRoom i ≤ F.room)
    let (bs, vs) ← popVals ts o.stack
    let (v, env) ← F.call o.env i vs
    pure ({ o with env := env, stack := bs }.push v)
  | .syscall op => do
    let (bs, vs) ← popVals (reportArgs op) o.stack
    let (v, env) ← o.env.syscall op vs
    pure ({ o with env := env, stack := bs }.push v)
  | .return _ | .exit => some { o with left := some i }
  | .gstore _ | .swap _ | .dummy _ => none

/-- An instruction of a block. -/
def exec (i : IRInstruction) (o : Operands) : Option Operands :=
  if F.Open o then F.act i o else none

/-- The test at the end of a block. -/
def test (c : CondOp) (o : Operands) : Option (Bool × Operands) :=
  if F.Open o then
    match popVal .byte o.stack with
    | some (bs, .byte x) => some (vmIfCheck c x, { o with stack := bs })
    | _ => none
  else none

/-- The operand machine, for the graph of a method. -/
def blocks : BlockMachine (Option Operands) where
  exec i o := o.bind (F.exec i)
  test c o := ((o.bind (F.test c)).map fun r => (r.1, some r.2)).getD (false, none)

end Frame

/-! ## A method that shows an environment -/

/-- One of the numbers of `irConst`. -/
def numberVal : Typ → Nat → Val
  | .byte, n => .byte (BitVec.ofNat 8 n)
  | .short, n => .short (BitVec.ofNat 16 n)
  | .void, _ => .void

theorem numberVal_typ (t : Typ) (n : Nat) : (numberVal t n).typ = t := by
  cases t <;> rfl

theorem arithVal_binary {op : BinaryOp} {aop : ArithOp} {a b : Val} (hop : opFor op = some aop)
    (hshift : ¬ (a.typ = .short ∧ isShift op = true)) (h : binaryVal op a b = some v) :
    arithVal aop a b = some v ∧ b.typ = a.typ ∧ v.typ = a.typ := by
  have hresult : ∀ {k : Nat} {x y z : BitVec k}, isShift op = false → vmArith op x y = some z →
      z = Vmstate.binaryOp aop x y := by
    intro k x y z hno hz
    cases op <;> cases hop <;> cases hno <;> simp only [vmArith] at hz <;> try split at hz
    all_goals first | exact (Option.some.inj hz).symm | cases hz
  rcases binaryVal_arith hop h with ⟨x, y, z, rfl, rfl, rfl, hz⟩ | ⟨x, y, z, rfl, rfl, rfl, hz⟩
  · refine ⟨?_, rfl, rfl⟩
    cases hs : isShift op with
    | true =>
      cases op <;> cases hs <;> cases hop <;> simp only [vmArith] at hz <;> split at hz
      all_goals first | exact congrArg (some ∘ Val.byte) (Option.some.inj hz) | cases hz
    | false =>
      rw [hresult hs hz]
      cases op <;> cases hs <;> cases hop <;> rfl
  · refine ⟨?_, rfl, rfl⟩
    have hs : isShift op = false := by
      rw [← Bool.not_eq_true]
      exact fun hs => hshift ⟨rfl, hs⟩
    rw [hresult hs hz]
    cases op <;> cases hs <;> cases hop <;> rfl

theorem operate_binary {op : ArithOp} {a b : Val} (hb : b.typ = a.typ) (hv : arithVal op a b = some v) :
    operate a.typ op (bs ++ (valBytes a ++ valBytes b)) = some (bs, v) := by
  have hop : op ≠ .complement := by
    rintro rfl
    cases hv
  have hpop : popVal a.typ ((bs ++ valBytes a) ++ valBytes b) = some (bs ++ valBytes a, b) := by
    rw [← hb, popVal_append]
  rw [← List.append_assoc]
  simp only [operate, hpop, popVal_append, hv, Option.bind_eq_bind, Option.bind_some, if_neg hop,
    Option.map_some]

theorem operate_complement {a : Val} (hv : prefixVal .complement a = some v) :
    operate a.typ .complement (bs ++ valBytes a) = some (bs, v) := by
  simp only [operate, popVal_append, hv, Option.bind_eq_bind, Option.bind_some, if_true, Option.map_some]

namespace Frame

variable (F : Frame)

/-- The variables of the method have values of their types. -/
def Typed (env : Env) : Prop :=
  (∀ i slot t, F.lVars.lookup i = some (slot, t) → (env.vars (.local i)).typ = t) ∧
    ∀ i slot t, F.gVars.lookup i = some (slot, t) → (env.vars (.global i)).typ = t

/-- The method is at work, in the environment and with the operands. -/
structure Shows (env : Env) (bs : List VByte) (w : Option Operands) : Prop where
  eq : w = some ⟨env, bs, none⟩
  typed : F.Typed env

/-- There is room for `n` bytes of operands. -/
abbrev Room (n : Nat) : Prop := n ≤ F.room

variable {F} {env env' : Env} {w : Option Operands} {i : VariableID} {slot : Nat} {a b u : Val}

theorem Room.append (h : F.Room (bs.length + n)) (hle : cs.length ≤ n) : F.Room (bs ++ cs).length := by
  rw [List.length_append]
  exact (Nat.add_le_add_left hle _).trans h

theorem Room.mono {m : Nat} (h : F.Room n) (hle : m ≤ n) : F.Room m := hle.trans h

theorem Typed.write (h : F.Typed env) (hslot : F.lVars.lookup i = some (slot, v.typ)) :
    F.Typed (env.write (.local i) v) := by
  refine ⟨fun j slot' t hj => ?_, fun j slot' t hj => ?_⟩
  · by_cases hij : j = i
    · subst hij
      obtain ⟨-, rfl⟩ := Prod.mk.inj (Option.some.inj (hslot.symm.trans hj))
      rw [Env.write_self]
    · rw [Env.write_of_ne env v fun heq => hij (Var.local.inj heq)]
      exact h.1 j slot' t hj
  · rw [Env.write_of_ne env v fun heq => by cases heq]
    exact h.2 j slot' t hj

theorem Typed.congr (h : F.Typed env) (hvars : env'.vars = env.vars) : F.Typed env' := by
  unfold Typed
  rw [hvars]
  exact h

theorem exec_open {i : IRInstruction} {o o' : Operands} (h : F.exec i o = some o') : F.Open o := by
  by_contra hno
  rw [exec, if_neg hno] at h
  cases h

theorem exec_eq {o : Operands} (h : F.Open o) (i : IRInstruction) : F.exec i o = F.act i o := if_pos h

theorem test_open {c : CondOp} {o : Operands} {r : Bool × Operands} (h : F.test c o = some r) :
    F.Open o := by
  by_contra hno
  rw [test, if_neg hno] at h
  cases h

namespace Shows

/-- An instruction that leaves the environment as it is. -/
theorem straight (h : F.Shows env bs w) {i : IRInstruction}
    (hexec : F.exec i ⟨env, bs, none⟩ = some ⟨env, cs, none⟩) :
    F.Shows env cs (F.blocks.exec i w) := by
  obtain ⟨rfl, htyped⟩ := h
  exact ⟨hexec, htyped⟩

theorem bconst (h : F.Shows env bs w) (hroom : F.Room bs.length) (x : VByte) :
    F.Shows env (bs ++ [x]) (F.blocks.exec (.bconst x) w) :=
  h.straight (exec_eq ⟨hroom, rfl⟩ _)

theorem sconst (h : F.Shows env bs w) (hroom : F.Room bs.length) (x : VShort) :
    F.Shows env (bs ++ [lowByte x, highByte x]) (F.blocks.exec (.sconst x) w) :=
  h.straight (exec_eq ⟨hroom, rfl⟩ _)

theorem const (h : F.Shows env bs w) (hroom : F.Room bs.length) (ht : t ≠ .void) (n : Nat) :
    F.Shows env (bs ++ valBytes (numberVal t n)) (F.blocks.exec (irConst t n) w) := by
  cases t with
  | byte => exact h.bconst hroom _
  | short => exact h.sconst hroom _
  | void => exact absurd rfl ht

/-- A local variable is pushed. -/
theorem load (h : F.Shows env bs w) (hroom : F.Room bs.length)
    (hslot : F.lVars.lookup i = some (slot, t)) : (env.vars (.local i)).typ = t ∧
      F.Shows env (bs ++ valBytes (env.vars (.local i))) (F.blocks.exec (.load i) w) := by
  have ht := h.typed.1 i slot t hslot
  refine ⟨ht, h.straight ?_⟩
  rw [exec_eq ⟨hroom, rfl⟩]
  simp [act, hslot, ht, Operands.push]

/-- A global variable is pushed. -/
theorem gload (h : F.Shows env bs w) (hroom : F.Room bs.length)
    (hslot : F.gVars.lookup i = some (slot, t)) : (env.vars (.global i)).typ = t ∧
      F.Shows env (bs ++ valBytes (env.vars (.global i))) (F.blocks.exec (.gload i) w) := by
  have ht := h.typed.2 i slot t hslot
  refine ⟨ht, h.straight ?_⟩
  rw [exec_eq ⟨hroom, rfl⟩]
  simp [act, hslot, ht, Operands.push]

/-- A local variable is given the value on top. -/
theorem store (h : F.Shows env (bs ++ valBytes v) w) (hroom : F.Room (bs ++ valBytes v).length)
    (hslot : F.lVars.lookup i = some (slot, v.typ)) :
    F.Shows (env.write (.local i) v) bs (F.blocks.exec (.store i) w) := by
  obtain ⟨rfl, htyped⟩ := h
  refine ⟨?_, htyped.write hslot⟩
  show F.exec (.store i) _ = _
  rw [exec_eq ⟨hroom, rfl⟩]
  simp [act, hslot, popVal_append]

theorem dup (h : F.Shows env (bs ++ valBytes v) w) (hroom : F.Room (bs ++ valBytes v).length)
    (hv : v.typ ≠ .void) :
    F.Shows env (bs ++ valBytes v ++ valBytes v) (F.blocks.exec (.dup v.typ) w) := by
  refine h.straight ?_
  rw [exec_eq ⟨hroom, rfl⟩]
  simp [act, popVal_append, Operands.push, hv]

theorem pop (h : F.Shows env (bs ++ valBytes v) w) (hroom : F.Room (bs ++ valBytes v).length)
    (hv : v.typ ≠ .void) : F.Shows env bs (F.blocks.exec (.pop v.typ) w) := by
  refine h.straight ?_
  rw [exec_eq ⟨hroom, rfl⟩]
  simp [act, popVal_append, hv]

/-- A binary operator of the machine on two operands. -/
theorem operator {op : ArithOp} (h : F.Shows env (bs ++ (valBytes a ++ valBytes b)) w)
    (hroom : F.Room (bs ++ (valBytes a ++ valBytes b)).length) (hb : b.typ = a.typ)
    (hv : arithVal op a b = some v) :
    F.Shows env (bs ++ valBytes v) (F.blocks.exec (.arith a.typ op) w) := by
  refine h.straight ?_
  rw [exec_eq ⟨hroom, rfl⟩]
  simp [act, operate_binary hb hv, Operands.push]

/-- A binary operator of the language. -/
theorem arith {op : BinaryOp} {aop : ArithOp} (hop : opFor op = some aop)
    (h : F.Shows env (bs ++ (valBytes a ++ valBytes b)) w)
    (hroom : F.Room (bs ++ (valBytes a ++ valBytes b)).length)
    (hshift : ¬ (a.typ = .short ∧ isShift op = true)) (hv : binaryVal op a b = some v) :
    F.Shows env (bs ++ valBytes v) (F.blocks.exec (.arith a.typ aop) w) := by
  obtain ⟨hval, hb, -⟩ := arithVal_binary hop hshift hv
  exact h.operator hroom hb hval

theorem complement (h : F.Shows env (bs ++ valBytes a) w) (hroom : F.Room (bs ++ valBytes a).length)
    (hv : prefixVal .complement a = some v) : v.typ = a.typ ∧
      F.Shows env (bs ++ valBytes v) (F.blocks.exec (.arith a.typ .complement) w) := by
  refine ⟨?_, h.straight ?_⟩
  · cases a <;> cases hv <;> rfl
  · rw [exec_eq ⟨hroom, rfl⟩]
    simp [act, operate_complement hv, Operands.push]

theorem b2s (h : F.Shows env (bs ++ valBytes a) w) (hroom : F.Room (bs ++ valBytes a).length)
    (ha : a.typ = .byte) (hv : convertVal .short a = some v) : v.typ = .short ∧
      F.Shows env (bs ++ valBytes v) (F.blocks.exec .b2s w) := by
  refine ⟨?_, h.straight ?_⟩
  · cases a <;> cases hv
    rfl
  · rw [exec_eq ⟨hroom, rfl⟩]
    simp [act, ← ha, popVal_append, hv, Operands.push]

theorem s2b (h : F.Shows env (bs ++ valBytes a) w) (hroom : F.Room (bs ++ valBytes a).length)
    (ha : a.typ = .short) (hv : convertVal .byte a = some v) : v.typ = .byte ∧
      F.Shows env (bs ++ valBytes v) (F.blocks.exec .s2b w) := by
  refine ⟨?_, h.straight ?_⟩
  · cases a <;> cases hv
    rfl
  · rw [exec_eq ⟨hroom, rfl⟩]
    simp [act, ← ha, popVal_append, hv, Operands.push]

/-- The byte that is tested of an operand next to a zero. -/
theorem booleanCast (h : F.Shows env (bs ++ valBytes a) w) (hroom : F.Room (bs ++ valBytes a).length)
    (ha : a.typ ≠ .void) : F.Shows env (bs ++ [zeroTest a]) (booleanCastSem F.blocks a.typ w) := by
  cases a with
  | byte x => exact h
  | short x =>
    have hor : F.Shows env (bs ++ valBytes (.byte (lowByte x ||| highByte x)))
        (F.blocks.exec (.arith .byte .or) w) :=
      @operator bs (.byte (lowByte x ||| highByte x)) F env w (.byte (lowByte x)) (.byte (highByte x)) .or
        h hroom rfl rfl
    exact hor
  | void => exact absurd rfl ha

/-- The comparison of two operands. -/
theorem cmp (h : F.Shows env (bs ++ (valBytes a ++ valBytes b)) w)
    (hroom : F.Room (bs ++ (valBytes a ++ valBytes b)).length) (ha : a.typ = t) (hb : b.typ = t)
    (ht : t ≠ .void) : F.Shows env (bs ++ [cmpVal a b]) (F.blocks.exec (.arith t .cmp) w) := by
  subst ha
  have hval : arithVal .cmp a b = some (.byte (cmpVal a b)) := by
    cases a with
    | byte x =>
      cases b <;> cases hb
      rfl
    | short x =>
      cases b <;> cases hb
      rfl
    | void => exact absurd rfl ht
  exact h.operator hroom hb hval

/-- A system call that changes a report. -/
theorem syscall {op : SyscallOp} (h : F.Shows env (bs ++ vs.flatMap valBytes) w)
    (hroom : F.Room (bs ++ vs.flatMap valBytes).length) (hop : env.syscall op vs = some (v, env')) :
    v = .void ∧ F.Shows env' bs (F.blocks.exec (.syscall op) w) := by
  obtain ⟨rfl, htyped⟩ := h
  obtain ⟨hts, rfl, hvars⟩ := syscall_spec hop
  refine ⟨rfl, ?_, htyped.congr hvars⟩
  have hpop := popVals_append bs vs
  rw [hts] at hpop
  show F.exec (.syscall op) _ = _
  rw [exec_eq ⟨hroom, rfl⟩]
  simp [act, hpop, hop, Operands.push, valBytes]

/-- A call. -/
theorem call {i : MethodID} (hsig : F.sig i = some (ts, t)) (hts : vs.map Val.typ = ts)
    (hcall : F.call env i vs = some (v, env')) (h : F.Shows env (bs ++ vs.flatMap valBytes) w)
    (hroom : F.Room ((bs ++ vs.flatMap valBytes).length + F.callRoom i)) : v.typ = t ∧
      F.Shows env' (bs ++ valBytes v) (F.blocks.exec (.call i) w) := by
  obtain ⟨rfl, htyped⟩ := h
  obtain ⟨ht, hvars⟩ := F.called hsig hts hcall
  refine ⟨ht, ?_, htyped.congr hvars⟩
  have hpop := popVals_append bs vs
  rw [hts] at hpop
  show F.exec (.call i) _ = _
  rw [exec_eq ⟨(Nat.le_add_right _ _).trans hroom, rfl⟩]
  have hguard : (guard ((bs ++ vs.flatMap valBytes).length + F.callRoom i ≤ F.room) : Option Unit) =
      some () := by
    rw [guard, if_pos hroom]
    rfl
  simp only [act, hsig, hguard, hpop, hcall, Option.bind_eq_bind, Option.bind_some]
  rfl

/-- The method is left. -/
theorem leave {i : IRInstruction} (h : F.Shows env bs w) (hroom : F.Room bs.length)
    (hi : isLeave i = true) : F.blocks.exec i w = some ⟨env, bs, some i⟩ := by
  obtain ⟨rfl, -⟩ := h
  show F.exec i _ = _
  rw [exec_eq ⟨hroom, rfl⟩]
  cases i <;> cases hi <;> rfl

/-- The test of the byte on top. -/
theorem test {x : VByte} (h : F.Shows env (bs ++ [x]) w) (hroom : F.Room (bs ++ [x]).length)
    (c : CondOp) : (F.blocks.test c w).1 = vmIfCheck c x ∧ F.Shows env bs (F.blocks.test c w).2 := by
  obtain ⟨rfl, htyped⟩ := h
  have hpop : popVal .byte (bs ++ [x]) = some (bs, .byte x) := popVal_append bs (.byte x)
  have htest : F.test c ⟨env, bs ++ [x], none⟩ = some (vmIfCheck c x, ⟨env, bs, none⟩) := by
    rw [Frame.test, if_pos ⟨hroom, rfl⟩, hpop]
  have hblocks : F.blocks.test c (some ⟨env, bs ++ [x], none⟩) =
      (vmIfCheck c x, some ⟨env, bs, none⟩) := by
    show (((some _ : Option Operands).bind (F.test c)).map _).getD _ = _
    rw [Option.bind_some, htest]
    rfl
  rw [hblocks]
  exact ⟨rfl, rfl, htyped⟩

end Shows

end Frame

end KeyboardFirmware.Vm
