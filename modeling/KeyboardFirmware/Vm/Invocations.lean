/-
  Methods that call each other.

  A call lays a new frame over its arguments, and a return takes it away again.  The method that is
  called works above the slots of its caller, so that the caller finds its variables and operands as
  they were, with the value on top (`left_carries`).  From one call follow calls that are nested to any
  depth (`Routines.calls_run`).
-/
import KeyboardFirmware.Vm.Blocks
import KeyboardFirmware.Vm.Slots

namespace KeyboardFirmware.Vm

open Compiler Lib

variable {s : Storage} {vm vm' : Vmstate} {nargs nlocals offset a b n : Nat} {v : Val} {t : Typ}

/-! ## A new frame -/

theorem pointerAt_eq {p : Nat} (hlo : vm.mem a = lowByte (BitVec.ofNat 16 p))
    (hhi : vm.mem (a + 1) = highByte (BitVec.ofNat 16 p)) (hp : p < 65536) : vm.pointerAt a = p := by
  rw [Vmstate.pointerAt, Vmstate.shortAt, hlo, hhi, shortOf_bytes, BitVec.toNat_ofNat]
  exact Nat.mod_eq_of_lt hp

/-- Where the frame of a method that is entered lies. -/
def Vmstate.newFrame (vm : Vmstate) (nargs : Nat) : Nat := vm.stackTop - nargs + 1

theorem pokePointer_mem (vm : Vmstate) (a p b : Nat) : (vm.pokePointer a p).mem b =
    if b = a + 1 then highByte (BitVec.ofNat 16 p)
    else if b = a then lowByte (BitVec.ofNat 16 p) else vm.mem b := rfl

/-- The memory of a new frame: three pointers, and copies of the arguments. -/
theorem enter_mem (vm : Vmstate) (nargs nlocals offset b : Nat) :
    (vm.enter nargs nlocals offset).mem b =
      if vm.newFrame nargs + 6 ≤ b ∧ b < vm.newFrame nargs + 6 + nargs then vm.mem (b - 6)
      else (((vm.pokePointer (vm.newFrame nargs) vm.ip).pokePointer (vm.newFrame nargs + 2)
        (vm.newFrame nargs - 1)).pokePointer (vm.newFrame nargs + 4) vm.currentFrame).mem b := by
  show (Vmstate.pokeAll _ _ _).mem b = _
  rw [pokeAll_mem, List.length_map, List.length_range]
  by_cases hb : vm.newFrame nargs + 6 ≤ b ∧ b < vm.newFrame nargs + 6 + nargs
  · obtain ⟨k, rfl⟩ := Nat.exists_eq_add_of_le hb.1
    have hk : k < nargs := by omega
    have hget : ((List.range nargs).map fun i => vm.mem (vm.stackTop - nargs + 1 + i)).getD k 0 =
        vm.mem (vm.newFrame nargs + k) := by
      simp [List.getD_eq_getElem?_getD, hk, Vmstate.newFrame]
    rw [if_pos hb, show vm.newFrame nargs + 6 + k - 6 = vm.newFrame nargs + k by omega, ← hget]
    exact (if_pos hb).trans (congrArg (fun i => List.getD _ i 0) (Nat.add_sub_cancel_left ..))
  · rw [if_neg hb]
    exact if_neg hb

theorem enter_below (hb : b < vm.newFrame nargs) :
    (vm.enter nargs nlocals offset).mem b = vm.mem b := by
  rw [enter_mem, if_neg (by omega)]
  simp only [pokePointer_mem]
  repeat rw [if_neg (by omega)]

theorem enter_args {k : Nat} (hk : k < nargs) :
    (vm.enter nargs nlocals offset).mem (vm.newFrame nargs + 6 + k) = vm.mem (vm.newFrame nargs + k) := by
  rw [enter_mem, if_pos (by omega)]
  exact congrArg _ (by omega)

/-- What `vm_do_return` will find in a memory that is as that of the new frame below the arguments. -/
theorem enter_pointers
    (hmem : ∀ b < vm.newFrame nargs + 6, vm'.mem b = (vm.enter nargs nlocals offset).mem b)
    (hip : vm.ip < 65536) (htop : vm.newFrame nargs ≤ 65536) (hframe : vm.currentFrame < 65536) :
    vm'.pointerAt (vm.newFrame nargs) = vm.ip ∧
      vm'.pointerAt (vm.newFrame nargs + 2) = vm.newFrame nargs - 1 ∧
      vm'.pointerAt (vm.newFrame nargs + 4) = vm.currentFrame := by
  have hpos : 0 < vm.newFrame nargs := Nat.succ_pos _
  have hold : ∀ b < vm.newFrame nargs + 6, vm'.mem b =
      (((vm.pokePointer (vm.newFrame nargs) vm.ip).pokePointer (vm.newFrame nargs + 2)
        (vm.newFrame nargs - 1)).pokePointer (vm.newFrame nargs + 4) vm.currentFrame).mem b := by
    intro b hb
    rw [hmem b hb, enter_mem, if_neg (by omega)]
  simp only [pokePointer_mem] at hold
  refine ⟨pointerAt_eq ?_ ?_ hip, pointerAt_eq ?_ ?_ (by omega), pointerAt_eq ?_ ?_ hframe⟩
  all_goals
    rw [hold _ (by omega)]
    repeat first | rw [if_pos rfl] | rw [if_neg (by omega)]

/-! ## What lies in a slot -/

/-- The value of a type that lies at an address. -/
def valAt (mem : Nat → VByte) (a : Nat) : Typ → Val
  | .byte => .byte (mem a)
  | .short => .short (shortOf (mem a) (mem (a + 1)))
  | .void => .void

theorem valAt_typ (mem : Nat → VByte) (a : Nat) (t : Typ) : (valAt mem a t).typ = t := by
  cases t <;> rfl

theorem holdsVal_valAt (mem : Nat → VByte) (a : Nat) (t : Typ) : HoldsVal mem a (valAt mem a t) := by
  intro i b hi
  cases t with
  | byte =>
    cases i with
    | zero => exact Option.some.inj hi
    | succ i => cases hi
  | short =>
    rw [valAt, valBytes, lowByte_shortOf, highByte_shortOf] at hi
    rcases i with _ | _ | i
    · exact Option.some.inj hi
    · exact Option.some.inj hi
    · cases hi
  | void => cases hi

theorem HoldsVal.valAt_eq {mem : Nat → VByte} (h : HoldsVal mem a v) : valAt mem a v.typ = v := by
  cases v with
  | byte x => exact congrArg Val.byte (h 0 x rfl)
  | short x =>
    have hlo : mem a = lowByte x := h 0 _ rfl
    have hhi : mem (a + 1) = highByte x := h 1 _ rfl
    show Val.short (shortOf (mem a) (mem (a + 1))) = _
    rw [hlo, hhi, shortOf_bytes]
  | void => rfl

/-- The value that lies in the slot of a variable. -/
def slotVal (vars : VarAllocation) (mem : Nat → VByte) (base : Nat) (j : VariableID) : Val :=
  match vars.lookup j with
  | some (slot, t) => valAt mem (base + slot) t
  | none => .void

theorem slotVal_eq {vars : VarAllocation} {mem : Nat → VByte} {base slot : Nat} {j : VariableID}
    (h : vars.lookup j = some (slot, t)) : slotVal vars mem base j = valAt mem (base + slot) t := by
  rw [slotVal, h]

theorem holdsVars_slotVal (vars : VarAllocation) (mem : Nat → VByte) (base : Nat) :
    HoldsVars vars (slotVal vars mem base) mem base := by
  intro j slot t hj
  rw [slotVal_eq hj]
  exact ⟨valAt_typ _ _ _, holdsVal_valAt _ _ _⟩

theorem length_flatMap_valBytes (vs : List Val) :
    (vs.flatMap valBytes).length = bytesOf (vs.map Val.typ) := by
  induction vs with
  | nil => rfl
  | cons v vs ih =>
    rw [List.flatMap_cons, List.length_append, ih, length_valBytes]
    rfl

/-- The bytes of an argument are where its slot is. -/
theorem getElem?_arguments {vs : List Val} {j i : Nat} (hv : vs[j]? = some v)
    (hi : i < typeBytes v.typ) :
    (vs.flatMap valBytes)[slotOffset (vs.map Val.typ) j + i]? = (valBytes v)[i]? := by
  induction vs generalizing j with
  | nil => cases hv
  | cons u us ih =>
    rw [List.flatMap_cons]
    cases j with
    | zero =>
      obtain rfl := Option.some.inj hv
      show (valBytes u ++ us.flatMap valBytes)[0 + i]? = _
      rw [Nat.zero_add, List.getElem?_append_left (by rwa [length_valBytes])]
    | succ j =>
      have hoffset : slotOffset ((u :: us).map Val.typ) (j + 1) =
          (valBytes u).length + slotOffset (us.map Val.typ) j := by
        rw [length_valBytes]
        rfl
      rw [hoffset, Nat.add_assoc, List.getElem?_append_right (Nat.le_add_right _ _),
        Nat.add_sub_cancel_left]
      exact ih hv

/-! ## Call and return -/

theorem call_steps (hr : vm.Ready) {i : Nat} (hi : i < 128)
    (hat : CodeAt s a [.call, .immediateByte (BitVec.ofNat 8 i)]) {m : Method}
    (hm : methodAt s vm.program i = some m) (hw : Hardware) :
    (vm.stand a).step hw s = (vm.stand (a + 2)).enter m.nargs m.nlocals m.codeOffset := by
  have hoperand : CodeAt s ((vm.stand a).advance 1).ip [.immediateByte (BitVec.ofNat 8 i)] := hat.2
  have hint : BitVec.toInt (BitVec.ofNat 8 i : Word8) = i := (toInt_ofNat_byte i).mpr hi
  have hm' : methodAt s (((vm.stand a).advance 1).advance 1).program i = some m := hm
  rw [step_exec (hr.stand a) hat rfl]
  show ((vm.stand a).advance 1).call s = _
  rw [call_eq, nextInstr_codeAt hoperand, hint, hm']
  rfl

theorem OnStack.ret {vm₀ vm1 : Vmstate} {base base' : Nat} {bs : List VByte}
    (h : OnStack vm1 base' (valBytes v) vm) (hret : vm.pointerAt vm.currentFrame ≠ 0)
    (hold : OnStack vm₀ base bs vm.doReturn) : OnStack vm₀ base (bs ++ valBytes v) (vm.ret v.typ) ∧
      (vm.ret v.typ).ip = vm.pointerAt vm.currentFrame := by
  unfold Vmstate.ret
  rw [if_neg hret]
  cases v with
  | byte x =>
    have htop : vm.topByte = x := @OnStack.topByte vm vm1 base' [] x h
    show OnStack vm₀ base (bs ++ [x]) (vm.doReturn.pushByte vm.topByte) ∧ _
    rw [htop]
    exact ⟨hold.pushByte x, rfl⟩
  | short x =>
    have htop : vm.topShort = shortOf (lowByte x) (highByte x) :=
      @OnStack.topShort vm vm1 base' [] (lowByte x) (highByte x) h
    show OnStack vm₀ base (bs ++ [lowByte x, highByte x]) (vm.doReturn.pushShort vm.topShort) ∧ _
    rw [htop, shortOf_bytes]
    exact ⟨hold.pushShort x, rfl⟩
  | void =>
    rw [valBytes, List.append_nil]
    exact ⟨hold, rfl⟩

/-- What neither instructions nor calls change. -/
def Vmstate.core (vm : Vmstate) : Vmstate :=
  { vm with
    ip := 0, stackTop := 0, currentFrame := 0, mem := fun _ => 0, writes := []
    keyboardreport := .clear, mousereport := ⟨0, 0, 0⟩ }

theorem stack_of_core (h : vm.core = vm'.core) : vm.stack = vm'.stack := by
  have hstack := congrArg Vmstate.stack h
  exact hstack

theorem state_of_core (h : vm.core = vm'.core) : vm.state = vm'.state := by
  have hstate := congrArg Vmstate.state h
  exact hstate

theorem program_of_core (h : vm.core = vm'.core) : vm.program = vm'.program := by
  have hprogram := congrArg Vmstate.program h
  exact hprogram

theorem code_of_core (h : vm.core = vm'.core) : vm.code = vm'.code := by
  have hcode := congrArg Vmstate.code h
  exact hcode

theorem OnStack.core_eq {vm₀ : Vmstate} {base : Nat} {bs : List VByte} (h : OnStack vm₀ base bs vm) :
    vm.core = vm₀.core := by
  have hcore := congrArg Vmstate.core h.control
  exact hcore

theorem Frame.Displays.core_eq {F : Frame} {env : Env} (h : F.Displays vm' env vm) :
    vm.core = vm'.core := by
  have hcore := congrArg Vmstate.core h.same
  exact hcore

theorem pokeAll_core (vs : List VByte) (vm : Vmstate) (a : Nat) : (vm.pokeAll a vs).core = vm.core := by
  induction vs generalizing vm a with
  | nil => rfl
  | cons v vs ih => exact (ih (vm.poke a v) (a + 1)).trans rfl

theorem pokePointer_core (vm : Vmstate) (a p : Nat) : (vm.pokePointer a p).core = vm.core := by
  unfold Vmstate.core
  rfl

theorem enter_core (vm : Vmstate) (nargs nlocals offset : Nat) :
    (vm.enter nargs nlocals offset).core = vm.core := by
  let args := (List.range nargs).map fun i => vm.mem (vm.stackTop - nargs + 1 + i)
  let top := vm.stackTop - nargs + 1
  let vm' := ((vm.pokePointer top vm.ip).pokePointer (top + 2) (top - 1)).pokePointer (top + 4)
    vm.currentFrame
  calc (vm.enter nargs nlocals offset).core = (vm'.pokeAll (top + 6) args).core := rfl
    _ = vm'.core := pokeAll_core _ _ _
    _ = vm.core :=
      (pokePointer_core _ _ _).trans ((pokePointer_core _ _ _).trans (pokePointer_core _ _ _))

/-! ## Methods that call each other -/

/-- A method and its code; `room` bytes above its frame are enough for it and all that it calls. -/
structure Routine where
  method : TMethod
  irm : IRMethod
  graph : IRGraph Bytecode
  lVars : VarAllocation
  args : List Typ
  typ : Typ
  nlocals : Nat
  codeOffset : Nat
  room : Nat

/-- What a method sees when it is called. -/
def Env.entered (env : Env) (locals : VariableID → Val) : Env :=
  { env with vars := fun x =>
      match x with
      | .local i => locals i
      | .global _ => env.vars x }

/-- The statements of the method return this value and leave this behind, whatever the local variables
    hold at first that are not arguments. -/
def Routine.Returns (r : Routine) (call : Env → MethodID → List Val → Option (Val × Env)) (env : Env)
    (vs : List Val) (v : Val) (env' : Env) : Prop :=
  v.typ = r.typ ∧ env'.vars = env.vars ∧ ∀ locals : VariableID → Val,
    (∀ (j : Nat) u, vs[j]? = some u → locals j = u) →
    ∃ n c, MeaningSteps (envMachine call) n (r.method.start ⟨⟨env.entered locals, []⟩, none⟩) c ∧
      c.ending = some (.returned v) ∧ env' = { c.state.state.env with vars := env.vars }

theorem meaningStep_ending {σ : Type} (M : Machine σ) {c : Compiler.Config (Activation σ)} {l : Leaving}
    (h : c.ending = some l) : meaningStep M c = none := by
  cases c with
  | finished a => rfl
  | running stats k a =>
    cases stats with
    | cons stat stats => cases h
    | nil =>
      cases k with
      | done => rfl
      | seq | whileLoop | forLoop => cases h

/-- The values are left over from whatever was there, but the statements bear one result at most. -/
theorem Routine.Returns.unique {r : Routine} {call : Env → MethodID → List Val → Option (Val × Env)}
    {env env1 env2 : Env} {vs : List Val} {v1 v2 : Val} (h1 : r.Returns call env vs v1 env1)
    (h2 : r.Returns call env vs v2 env2) : v1 = v2 ∧ env1 = env2 := by
  obtain ⟨-, -, hruns1⟩ := h1
  obtain ⟨-, -, hruns2⟩ := h2
  have hlocals : ∀ (j : Nat) u, vs[j]? = some u → (fun j => vs[j]?.getD .void) j = u := by
    intro j u hu
    show vs[j]?.getD .void = u
    rw [hu]
    rfl
  obtain ⟨n1, c1, hrun1, hend1, rfl⟩ := hruns1 _ hlocals
  obtain ⟨n2, c2, hrun2, hend2, rfl⟩ := hruns2 _ hlocals
  have hsame : c1 = c2 := by
    rcases Nat.le_total n1 n2 with hle | hle
    · have hrest := hrun2.rest hrun1 hle
      generalize n2 - n1 = k at hrest
      cases hrest with
      | refl => rfl
      | head _ hstep => cases (meaningStep_ending _ hend1).symm.trans hstep
    · have hrest := hrun1.rest hrun2 hle
      generalize n1 - n2 = k at hrest
      cases hrest with
      | refl => rfl
      | head _ hstep => cases (meaningStep_ending _ hend2).symm.trans hstep
  subst hsame
  exact ⟨Leaving.returned.inj (Option.some.inj (hend1.symm.trans hend2)), rfl⟩

/-- The methods of a program. -/
structure Routines where
  gVars : VarAllocation
  find : MethodID → Option Routine

namespace Routines

variable (P : Routines)

def sig : Signatures := fun i => (P.find i).map fun r => (r.args, r.typ)

/-- What a call needs above its arguments: the pointers, the locals, and the room of the method. -/
def callRoom (i : MethodID) : Nat :=
  ((P.find i).map fun r => 7 + r.nlocals + r.room - bytesOf r.args).getD 0

open Classical in
/-- What a call does when calls are nested so deep at most. -/
noncomputable def calls : Nat → Env → MethodID → List Val → Option (Val × Env)
  | 0, _, _, _ => none
  | d + 1, env, i, vs => (P.find i).bind fun r =>
    if h : ∃ res : Val × Env, r.Returns (calls d) env vs res.1 res.2 then some h.choose else none

theorem calls_succ {d : Nat} {env env' : Env} {i : MethodID} {vs : List Val}
    (h : P.calls (d + 1) env i vs = some (v, env')) :
    ∃ r, P.find i = some r ∧ r.Returns (P.calls d) env vs v env' := by
  obtain ⟨r, hr, h⟩ := Option.bind_eq_some_iff.mp h
  split at h
  · next hex =>
    have hspec := hex.choose_spec
    rw [Option.some.inj h] at hspec
    exact ⟨r, hr, hspec⟩
  · cases h

/-- Every result that the statements bear is the result of the call. -/
theorem calls_eq {d : Nat} {env env' : Env} {i : MethodID} {vs : List Val} {r : Routine}
    (hfind : P.find i = some r) (h : r.Returns (P.calls d) env vs v env') :
    P.calls (d + 1) env i vs = some (v, env') := by
  have hex : ∃ res : Val × Env, r.Returns (P.calls d) env vs res.1 res.2 := ⟨(v, env'), h⟩
  have hcalls : P.calls (d + 1) env i vs = some hex.choose := by
    rw [calls, hfind]
    exact dif_pos hex
  obtain ⟨hv, henv⟩ := hex.choose_spec.unique h
  rw [hcalls]
  exact congrArg some (Prod.ext hv henv)

/-- A frame of a method in which calls are nested so deep at most. -/
noncomputable def frame (d : Nat) (lVars : VarAllocation) (room : Nat) : Frame where
  gVars := P.gVars
  lVars := lVars
  sig := P.sig
  callRoom := P.callRoom
  room := room
  call := P.calls d
  called {env env' i ts t vs v} hsig _ hcall := by
    cases d with
    | zero => cases hcall
    | succ d =>
      obtain ⟨r, hr, htyp, hvars, -⟩ := P.calls_succ hcall
      rw [sig, hr] at hsig
      obtain ⟨-, rfl⟩ := Prod.mk.inj (Option.some.inj hsig)
      exact ⟨htyp, hvars⟩

/-- A method as the compiler puts it into an image: its entry, its code, its slots, and a body that the
    code generator gets right. -/
structure InStorage (s : Storage) (program code : Nat) (i : MethodID) (r : Routine) : Prop where
  number : i < 128
  entry : methodAt s program i = some ⟨bytesOf r.args, r.nlocals, r.codeOffset⟩
  loaded : Loaded r.method r.irm P.gVars r.lVars r.graph s (code + r.codeOffset)
  near : code + r.codeOffset ≤ 32768
  body : (P.frame 0 r.lVars r.room).PlainBody r.method.body
  args : ∀ (j : Nat) t, r.args[j]? = some t → r.lVars.lookup j = some (slotOffset r.args j, t)
  argsFit : bytesOf r.args ≤ r.nlocals
  slots : ∀ {j slot t}, r.lVars.lookup j = some (slot, t) → t ≠ .void ∧ slot + typeBytes t ≤ r.nlocals
  apart : ∀ {j k slot slot' t t'}, j ≠ k → r.lVars.lookup j = some (slot, t) →
    r.lVars.lookup k = some (slot', t') → slot + typeBytes t ≤ slot' ∨ slot' + typeBytes t' ≤ slot

end Routines

/-! ## Into a method -/

section Called

variable {P : Routines} {F : Frame} {r : Routine} {program code : Nat} {i : MethodID} {env env' : Env}
  {vs : List Val} {bs : List VByte} {vm₀ : Vmstate} {w w' : Watched}

/-- The machine in a method that it has entered. -/
def Watched.enter (w : Watched) (r : Routine) (a : Nat) : Watched :=
  { w with vm := (w.vm.stand (a + 2)).enter (bytesOf r.args) r.nlocals r.codeOffset }

theorem newFrame_eq (hw : F.Carries vm₀ env (bs ++ vs.flatMap valBytes) w)
    (hts : vs.map Val.typ = r.args) :
    (w.vm.stand (a + 2)).newFrame (bytesOf r.args) = vm₀.stackTop + bs.length + 1 := by
  obtain ⟨vm1, hvars, hstack⟩ := hw.displays
  have htop := hstack.top
  rw [List.length_append, length_flatMap_valBytes, hts] at htop
  show w.vm.stackTop - bytesOf r.args + 1 = _
  omega

theorem entered_core (hw : F.Carries vm₀ env bs w) : (w.enter r a).vm.core = vm₀.core := by
  obtain ⟨vm1, hvars, hstack⟩ := hw.displays
  have hcore : (w.enter r a).vm.core = (w.vm.stand (a + 2)).core := enter_core _ _ _ _
  exact hcore.trans (hstack.core_eq.trans hvars.core_eq)

/-- What lies below the new frame stays. -/
theorem entered_below (hw : F.Carries vm₀ env (bs ++ vs.flatMap valBytes) w)
    (hts : vs.map Val.typ = r.args) (hb : b ≤ vm₀.stackTop + bs.length) :
    (w.enter r a).vm.mem b = w.vm.mem b := by
  have hframe : b < (w.vm.stand (a + 2)).newFrame (bytesOf r.args) := by
    rw [newFrame_eq hw hts]
    omega
  exact enter_below hframe

theorem entered_layout (hl : F.Layout vm₀) (hgVars : F.gVars = P.gVars) (hfind : P.find i = some r)
    (hr : P.InStorage s program code i r) (hts : vs.map Val.typ = r.args)
    (hw : F.Carries vm₀ env (bs ++ vs.flatMap valBytes) w)
    (hroom : F.Room ((bs ++ vs.flatMap valBytes).length + P.callRoom i)) (d : Nat) :
    (P.frame d r.lVars r.room).Layout (w.enter r a).vm := by
  have hcore := @entered_core a F r env _ vm₀ w hw
  have hframe : (w.enter r a).vm.currentFrame = vm₀.stackTop + bs.length + 1 := newFrame_eq hw hts
  have htop : (w.enter r a).vm.stackTop = vm₀.stackTop + bs.length + 1 + 6 + r.nlocals := by
    rw [← @newFrame_eq a F r env vs bs vm₀ w hw hts]
    rfl
  have hstack : (w.enter r a).vm.stack = vm₀.stack := stack_of_core hcore
  have hstate : (w.enter r a).vm.state = vm₀.state := state_of_core hcore
  have hbelow := hl.frame
  have habove := hl.top
  refine ⟨hstate.trans hl.running, ?_, ?_, ?_, ?_, ?_, hr.apart⟩
  · have hcall : P.callRoom i = 7 + r.nlocals + r.room - bytesOf r.args := by
      rw [Routines.callRoom, hfind]
      rfl
    have hfits := hr.argsFit
    have hlimit := hl.room
    rw [List.length_append, length_flatMap_valBytes, hts, hcall] at hroom
    show _ + r.room ≤ _
    rw [htop, hstack]
    have hroom' : bs.length + bytesOf r.args + (7 + r.nlocals + r.room - bytesOf r.args) ≤ F.room :=
      hroom
    omega
  · rw [hstack, hframe]
    omega
  · rw [htop, hframe]
    omega
  · intro j slot t hj
    have hj' : F.gVars.lookup j = some (slot, t) := by
      rw [hgVars]
      exact hj
    obtain ⟨ht, hslot⟩ := hl.globals hj'
    rw [hstack, hframe]
    exact ⟨ht, by omega⟩
  · intro j slot t hj
    obtain ⟨ht, hslot⟩ := hr.slots hj
    rw [htop, hframe]
    exact ⟨ht, by omega⟩

/-- The machine shows a method that has been entered its arguments, and some values of the other
    locals. -/
theorem entered_carries (hl : F.Layout vm₀) (hgVars : F.gVars = P.gVars)
    (hr : P.InStorage s program code i r) (hts : vs.map Val.typ = r.args)
    (hw : F.Carries vm₀ env (bs ++ vs.flatMap valBytes) w) (d : Nat) :
    ∃ locals : VariableID → Val, (∀ (j : Nat) u, vs[j]? = some u → locals j = u) ∧
      (P.frame d r.lVars r.room).Carries (w.enter r a).vm (env.entered locals) [] (w.enter r a) := by
  have hnew := @newFrame_eq a F r env vs bs vm₀ w hw hts
  have hframe : (w.enter r a).vm.currentFrame = vm₀.stackTop + bs.length + 1 := hnew
  obtain ⟨vm1, hvars, hstack⟩ := hw.displays
  have hkept : Vmstate.Kept (w.vm.stand (a + 2)) (w.enter r a).vm := .enter _ _ _ _
  refine ⟨slotVal r.lVars (w.enter r a).vm.mem ((w.enter r a).vm.currentFrame + 6), ?_, ?_⟩
  · intro j u hu
    have hslot := hr.args j u.typ (by rw [← hts, List.getElem?_map, hu]; rfl)
    have hholds : HoldsVal (w.enter r a).vm.mem
        ((w.enter r a).vm.currentFrame + 6 + slotOffset r.args j) u := by
      intro k v hk
      have hlt : k < typeBytes u.typ := by
        rw [← length_valBytes]
        exact (List.getElem?_eq_some_iff.mp hk).1
      have hat : (vs.flatMap valBytes)[slotOffset r.args j + k]? = some v := by
        rw [← hts, getElem?_arguments hu hlt, hk]
      have hin : slotOffset r.args j + k < bytesOf r.args := by
        rw [← hts, ← length_flatMap_valBytes, hts]
        exact (List.getElem?_eq_some_iff.mp hat).1
      have hpushed : w.vm.mem (vm₀.stackTop + 1 + (bs.length + (slotOffset r.args j + k))) = v := by
        refine hstack.bytes _ v ?_
        rw [List.getElem?_append_right (Nat.le_add_right _ _), Nat.add_sub_cancel_left, hat]
      have hcopy : (w.enter r a).vm.mem
          ((w.vm.stand (a + 2)).newFrame (bytesOf r.args) + 6 + (slotOffset r.args j + k)) =
          w.vm.mem ((w.vm.stand (a + 2)).newFrame (bytesOf r.args) + (slotOffset r.args j + k)) :=
        enter_args hin
      rw [hnew] at hcopy
      rw [hframe, ← hpushed, Nat.add_assoc _ (slotOffset r.args j), hcopy]
      exact congrArg _ (by omega)
    rw [slotVal_eq hslot]
    exact hholds.valAt_eq
  · refine ⟨⟨_, ⟨rfl, ?_, ?_, ?_, ?_, fun _ _ _ => rfl⟩, .start _⟩, hw.shown⟩
    · exact hkept.keyboardreport.trans
        ((congrArg Vmstate.keyboardreport hstack.control).trans hvars.keyboard)
    · exact hkept.mousereport.trans ((congrArg Vmstate.mousereport hstack.control).trans hvars.mouse)
    · exact holdsVars_slotVal _ _ _
    · intro j slot t hj
      have hj' : F.gVars.lookup j = some (slot, t) := by
        rw [hgVars]
        exact hj
      obtain ⟨htyp, hholds⟩ := hvars.globals j slot t hj'
      have hbelow := (hl.globals hj').2
      have hframe' := hl.top
      have hsame : (w.enter r a).vm.stack = vm₀.stack :=
        stack_of_core (@entered_core a F r env _ vm₀ w hw)
      rw [hsame]
      refine ⟨htyp, hholds.congr fun b hle hlt => ?_⟩
      dsimp only at hlt
      rw [htyp] at hlt
      rw [entered_below hw hts (by omega)]
      exact hstack.below b (by omega)

/-! ## Back to the caller -/

/-- What a method leaves alone: the memory below its locals. -/
theorem Frame.Carries.below {d : Nat} (hw : (P.frame d r.lVars r.room).Carries vm' env bs w)
    (hframe : vm'.currentFrame + 6 ≤ vm'.stackTop) (hb : b < vm'.currentFrame + 6) :
    w.vm.mem b = vm'.mem b := by
  obtain ⟨vm1, hvars, hstack⟩ := hw.displays
  have htop : b ≤ vm'.stackTop := by omega
  rw [hstack.below b htop]
  refine hvars.elsewhere b htop ?_
  rintro ⟨j, slot, t, -, hle, -⟩
  omega

theorem Frame.Carries.core_eq (hw : F.Carries vm' env bs w) : w.vm.core = vm'.core := by
  obtain ⟨vm1, hvars, hstack⟩ := hw.displays
  exact hstack.core_eq.trans hvars.core_eq

theorem Frame.Carries.frame_eq (hw : F.Carries vm' env bs w) :
    w.vm.currentFrame = vm'.currentFrame := by
  obtain ⟨vm1, hvars, hstack⟩ := hw.displays
  exact hstack.frame_eq.trans hvars.frame_eq

theorem same_of_core (h : vm.core = vm'.core) (htop : vm.stackTop = vm'.stackTop)
    (hframe : vm.currentFrame = vm'.currentFrame) : { vm with
      ip := vm'.ip, mem := vm'.mem, writes := vm'.writes, keyboardreport := vm'.keyboardreport,
      mousereport := vm'.mousereport } = vm' := by
  cases vm
  cases vm'
  simp only [Vmstate.core, Vmstate.mk.injEq] at h htop hframe ⊢
  tauto

/-- A return takes the machine back to the caller's frame: its variables are as before, and the value
    lies on top of the operands that were below the arguments. -/
theorem left_carries {d : Nat} {env1 : Env} (hl : F.Layout vm₀)
    (hspace : vm₀.stack + STACK_SIZE ≤ 65536) (hts : vs.map Val.typ = r.args)
    (hw : F.Carries vm₀ env (bs ++ vs.flatMap valBytes) w) (hroom : F.Room bs.length)
    (ha : a + 2 < 65536)
    (hw' : (P.frame d r.lVars r.room).Carries (w.enter r a).vm env1 (valBytes v) w') (e : Nat) :
    F.Carries vm₀ { env1 with vars := env.vars } (bs ++ valBytes v)
        { w' with vm := (w'.vm.stand e).ret v.typ } ∧
      ((w'.vm.stand e).ret v.typ).ip = a + 2 := by
  have hnew := @newFrame_eq a F r env vs bs vm₀ w hw hts
  have hframe : (w.enter r a).vm.currentFrame = vm₀.stackTop + bs.length + 1 := hnew
  have htop : (w.enter r a).vm.currentFrame + 6 ≤ (w.enter r a).vm.stackTop := Nat.le_add_right _ _
  have hcaller : w.vm.currentFrame = vm₀.currentFrame := hw.frame_eq
  have hroom' : bs.length ≤ F.room := hroom
  have hlimit := hl.room
  have hbelow := hl.frame
  have habove := hl.top
  have hsize : STACK_SIZE = 96 := rfl
  have hold : ∀ b < vm₀.stackTop + bs.length + 7, w'.vm.mem b = (w.enter r a).vm.mem b := by
    intro b hb
    exact hw'.below htop (by omega)
  have hkept : ∀ b ≤ vm₀.stackTop + bs.length, w'.vm.mem b = w.vm.mem b := by
    intro b hb
    rw [hold b (by omega), entered_below hw hts hb]
  obtain ⟨hret, hback, hprevious⟩ : w'.vm.pointerAt ((w.vm.stand (a + 2)).newFrame (bytesOf r.args)) =
        (w.vm.stand (a + 2)).ip ∧
      w'.vm.pointerAt ((w.vm.stand (a + 2)).newFrame (bytesOf r.args) + 2) =
        (w.vm.stand (a + 2)).newFrame (bytesOf r.args) - 1 ∧
      w'.vm.pointerAt ((w.vm.stand (a + 2)).newFrame (bytesOf r.args) + 4) =
        (w.vm.stand (a + 2)).currentFrame := by
    refine enter_pointers (fun b hb => hold b ?_) ha ?_ ?_
    · omega
    · omega
    · show w.vm.currentFrame < _
      omega
  have hat : (w'.vm.stand e).currentFrame = (w.vm.stand (a + 2)).newFrame (bytesOf r.args) :=
    hw'.frame_eq
  obtain ⟨vm1, hvars1, hstack1⟩ := hw'.displays
  obtain ⟨vm2, hvars, hstack⟩ := hw.displays
  have hreturn : (w'.vm.stand e).pointerAt (w'.vm.stand e).currentFrame = a + 2 := by
    rw [hat]
    exact hret
  have hreturned : (w'.vm.stand e).doReturn.stackTop = vm₀.stackTop + bs.length := by
    show (w'.vm.stand e).pointerAt ((w'.vm.stand e).currentFrame + 2) = _
    rw [hat]
    exact hback.trans (by omega)
  have hrestored : (w'.vm.stand e).doReturn.currentFrame = vm₀.currentFrame := by
    show (w'.vm.stand e).pointerAt ((w'.vm.stand e).currentFrame + 4) = _
    rw [hat]
    exact hprevious.trans hcaller
  have hoperands : OnStack { (w'.vm.stand e).doReturn with stackTop := vm₀.stackTop } vm₀.stackTop bs
      (w'.vm.stand e).doReturn := by
    refine ⟨hreturned, fun k x hk => ?_, fun _ _ => rfl, rfl⟩
    have hlt : k < bs.length := (List.getElem?_eq_some_iff.mp hk).1
    show w'.vm.mem _ = x
    rw [hkept _ (by omega)]
    exact hstack.bytes k x (by rwa [List.getElem?_append_left hlt])
  have hvalue : OnStack vm1 (w.enter r a).vm.stackTop (valBytes v) (w'.vm.stand e) :=
    ⟨hstack1.top, hstack1.bytes, hstack1.below, hstack1.control⟩
  obtain ⟨hstack2, hip⟩ := hvalue.ret (by omega) hoperands
  refine ⟨⟨⟨_, ⟨?_, ?_, ?_, ?_, ?_, ?_⟩, hstack2⟩, hw'.shown⟩, hip.trans hreturn⟩
  · have hcore : (w'.vm.stand e).doReturn.core = w'.vm.core := rfl
    exact same_of_core (hcore.trans (hw'.core_eq.trans (entered_core hw))) rfl hrestored
  · exact (congrArg Vmstate.keyboardreport hstack1.control).trans hvars1.keyboard
  · exact (congrArg Vmstate.mousereport hstack1.control).trans hvars1.mouse
  · intro j slot t hj
    obtain ⟨htyp, hholds⟩ := hvars.locals j slot t hj
    have hslot := (hl.locals hj).2
    refine ⟨htyp, hholds.congr fun b hle hlt => ?_⟩
    dsimp only at hlt
    rw [htyp] at hlt
    exact (hkept b (by omega)).trans (hstack.below b (by omega))
  · intro j slot t hj
    obtain ⟨htyp, hholds⟩ := hvars.globals j slot t hj
    have hslot := (hl.globals hj).2
    refine ⟨htyp, hholds.congr fun b hle hlt => ?_⟩
    dsimp only at hlt
    rw [htyp] at hlt
    exact (hkept b (by omega)).trans (hstack.below b (by omega))
  · intro b hb hno
    exact (hkept b (by omega)).trans ((hstack.below b hb).trans (hvars.elsewhere b hb hno))

/-! ## Calls -/

theorem stand_ip (h : vm.ip = a) : vm.stand a = vm := by
  subst h
  rfl

/-- The machine enters a method. -/
theorem enter_follows (hready : w.vm.Ready) (hr : P.InStorage s program code i r)
    (hprogram : w.vm.program = program) (hcode : w.vm.code = code)
    (hat : CodeAt s a [.call, .immediateByte (BitVec.ofNat 8 i)]) :
    Follows s w a (w.enter r a) (code + r.codeOffset) := by
  have hstep := call_steps hready hr.number hat (hprogram ▸ hr.entry)
  have hstand : (w.enter r a).vm.stand (code + r.codeOffset) = (w.enter r a).vm := by
    refine stand_ip ?_
    rw [← hcode]
    rfl
  refine ⟨1, [], (List.append_nil _).symm, ?_⟩
  rw [hstand]
  exact .step hready.running hstep (.refl _)

/-- And leaves it. -/
theorem leave_follows {e : Nat} (hready : w'.vm.Ready) (hat : CodeAt s e [.ret v.typ])
    (hip : ((w'.vm.stand (e + 1)).ret v.typ).ip = a) :
    Follows s w' e { w' with vm := (w'.vm.stand (e + 1)).ret v.typ } a := by
  refine ⟨1, [], (List.append_nil _).symm, ?_⟩
  dsimp only
  rw [stand_ip hip]
  refine .step hready.running (fun hw => ?_) (.refl _)
  rw [step_exec (hready.stand e) hat rfl]
  rfl

end Called

namespace Routines

variable {P : Routines} {program code : Nat}

/-- **Calls do what the statements of the methods do**, to any depth. -/
theorem calls_run (hP : ∀ i r, P.find i = some r → P.InStorage s program code i r) (d : Nat)
    {lVars : VarAllocation} {room : Nat} {vm₀ : Vmstate} (hl : (P.frame d lVars room).Layout vm₀)
    (hprogram : vm₀.program = program) (hcode : vm₀.code = code)
    (hspace : vm₀.stack + STACK_SIZE ≤ 65536) : (P.frame d lVars room).CallsRun s vm₀ := by
  induction d generalizing lVars room vm₀ with
  | zero =>
    intro env env' i ts t vs v bs w a hsig hts hcall
    cases hcall
  | succ d ih =>
    intro env env' i ts t vs v bs w a hsig hts hcall hw hroom hat ha
    obtain ⟨r, hfind, htyp, hvars, hruns⟩ := P.calls_succ hcall
    have hr := hP i r hfind
    obtain ⟨hargs, -⟩ : r.args = ts ∧ r.typ = t := by
      have hsig' : (P.find i).map (fun r => (r.args, r.typ)) = some (ts, t) := hsig
      rw [hfind] at hsig'
      exact Prod.mk.inj (Option.some.inj hsig')
    rw [← hargs] at hts
    have hcore : w.vm.core = vm₀.core := hw.core_eq
    have hentered : (w.enter r a).vm.core = vm₀.core := entered_core hw
    have hl' : (P.frame d r.lVars r.room).Layout (w.enter r a).vm :=
      entered_layout hl rfl hfind hr hts hw hroom d
    obtain ⟨locals, hlocals, hin⟩ := entered_carries (a := a) hl rfl hr hts hw d
    obtain ⟨n, c, hrun, hending, rfl⟩ := hruns locals hlocals
    have hcalls := ih hl' ((program_of_core hentered).trans hprogram)
      ((code_of_core hentered).trans hcode) (by rwa [stack_of_core hentered])
    obtain ⟨w', e, hw', hgoes, hend⟩ :=
      Frame.method_follows hl' hcalls hr.loaded hr.near hr.body hin hrun
    rw [hending] at hw'
    have hready : w.vm.Ready := hw.ready hl ((Nat.le_add_right _ _).trans hroom)
    have hready' : w'.vm.Ready := by
      have hbody : (P.frame d r.lVars r.room).PlainBody r.method.body := hr.body
      have hfits := (Frame.graph_runs hr.loaded.built hbody hin.typed hrun).1
      rw [Frame.operands, hending] at hfits
      exact hw'.ready hl' hfits
    have hbs : (P.frame (d + 1) lVars room).Room bs.length := by
      refine le_trans ?_ hroom
      rw [List.length_append]
      omega
    obtain ⟨hleft, hip⟩ := left_carries hl hspace hts hw hbs ha hw' (e + 1)
    have henter := enter_follows hready hr ((program_of_core hcore).trans hprogram)
      ((code_of_core hcore).trans hcode) hat
    exact ⟨_, hleft, henter.trans (hgoes.trans (leave_follows hready' (hend _ hending) hip))⟩

end Routines

end KeyboardFirmware.Vm
