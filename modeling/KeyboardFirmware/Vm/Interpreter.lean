/-
  `interpreter.c`: one virtual machine.

  Addresses are natural numbers; memory is one function of them, and `Vmstate.stack` is where the
  machine's own `stack[0]` lies in it.  A short takes two bytes, the low one first.  `writes` keeps
  a record of the writes to memory of a step, the latest first; the machine does not read it.
  Programs lie in a storage of their own, where a read may fail.
-/
import KeyboardFirmware.Compiler.Output

namespace KeyboardFirmware.Vm

open Compiler

/-- `STACK_SIZE`. -/
def STACK_SIZE : Nat := 96

/-- `NO_KEY`. -/
def NO_KEY : Word8 := 0xff

/-- The enumeration `bytecode`, by families: `store .byte` is `BSTORE`, `arith .add .short` is
    `SADD`, `ret .void` is `RET`. -/
inductive Opcode where
  | store (t : Typ)
  | storeN (t : Typ) (i : Fin 4)
  | load (t : Typ)
  | loadN (t : Typ) (i : Fin 4)
  | gstore (t : Typ)
  | gload (t : Typ)
  | const (t : Typ)
  | constN (t : Typ) (i : Fin 4)
  | dup (t : Typ)
  | pop (t : Typ)
  | swap
  | arith (op : ArithOp) (t : Typ)
  | b2s
  | s2b
  | cond (c : CondOp)
  | goto
  | nop
  | call
  | ret (t : Typ)
  | vmexit
  | syscall (op : SyscallOp)
  deriving DecidableEq, Repr

/-- The twelve operators in the order of their opcodes. -/
def arithOps : List ArithOp :=
  [.add, .subtract, .multiply, .divide, .mod, .and, .or, .xor, .complement, .cmp, .lshift, .rshift]

/-- The five opcodes of one width for the first four slots or constants. -/
def withFirstFour (op : Opcode) (opN : Fin 4 → Opcode) : List (Option Opcode) :=
  some op :: [0, 1, 2, 3].map fun i => some (opN i)

/-- The values of the enumeration, from 0 on. -/
def opcodes : List (Option Opcode) := List.flatten [
  withFirstFour (.store .byte) (.storeN .byte),
  withFirstFour (.store .short) (.storeN .short),
  withFirstFour (.load .byte) (.loadN .byte),
  withFirstFour (.load .short) (.loadN .short),
  [some (.gstore .byte), some (.gload .byte), some (.gstore .short), some (.gload .short)],
  withFirstFour (.const .byte) (.constN .byte),
  withFirstFour (.const .short) (.constN .short),
  [some (.dup .byte), some (.dup .short), some (.pop .byte), some (.pop .short), some .swap],
  List.replicate 9 none,
  arithOps.map fun op => some (.arith op .byte),
  arithOps.map fun op => some (.arith op .short),
  [some .b2s, some .s2b],
  [some (.cond .ifEq), some (.cond .ifNe), some (.cond .ifLt), some (.cond .ifGt),
    some (.cond .ifGe), some (.cond .ifLe)],
  [some .goto, some .nop, some .call, some (.ret .byte), some (.ret .short), some (.ret .void),
    some .vmexit],
  [some (.syscall .pressKey), some (.syscall .releaseKey), some (.syscall .checkKey),
    some (.syscall .checkPhysKey), some (.syscall .waitKey), some (.syscall .waitPhysKey)],
  [none, none],
  [some (.syscall .delay), some (.syscall .getUptimeMS), some (.syscall .getUptime),
    some (.syscall .buzz), some (.syscall .buzzAt), some (.syscall .moveMouse),
    some (.syscall .pressMouseButtons), some (.syscall .releaseMouseButtons)]]

/-- The case of the `switch` for a byte, if there is one. -/
def decode (b : Word8) : Option Opcode := (opcodes[b.toNat]?).join

/-- The values of `state`, in their order. -/
inductive Status where
  | stopped
  | crashed
  | noProgram
  | running
  | waitReport
  | waitMouseReport
  | delay
  | waitKey
  | waitPhysKey
  deriving DecidableEq, Repr

/-- `state >= VMRUNNING`. -/
def Status.active : Status → Bool
  | stopped | crashed | noProgram => false
  | _ => true

/-- `ExtraKeyboardReport`. -/
structure ExtraKeyboardReport where
  modifiers : Word8
  keys : List Word8
  deriving DecidableEq, Repr

namespace ExtraKeyboardReport

/-- The first key of the codes from `HID_KEYBOARD_SC_LEFT_CONTROL` on. -/
def leftControl : Word8 := 0xe0

/-- `ExtraKeyboardReport_clear`. -/
def clear : ExtraKeyboardReport := ⟨0, List.replicate 6 NO_KEY⟩

/-- `ExtraKeyboardReport_add`. -/
def add (r : ExtraKeyboardReport) (key : Word8) : ExtraKeyboardReport :=
  if leftControl ≤ key then { r with modifiers := r.modifiers ||| ((1 : Word8) <<< (key - leftControl).toNat) }
  else if key ∈ r.keys then r
  else { r with keys := r.keys.replace NO_KEY key }

/-- `ExtraKeyboardReport_remove`. -/
def remove (r : ExtraKeyboardReport) (key : Word8) : ExtraKeyboardReport :=
  if leftControl ≤ key then { r with modifiers := r.modifiers &&& ~~~((1 : Word8) <<< (key - leftControl).toNat) }
  else { r with keys := r.keys.replace key NO_KEY }

end ExtraKeyboardReport

/-- The fields of `MouseReport_Data_t` that the machine sets. -/
structure MouseReport where
  button : Word8
  x : VByte
  y : VByte
  deriving DecidableEq, Repr

/-- `vmstate`, with the memory it runs in. -/
structure Vmstate where
  state : Status
  delayEndMs : BitVec 32
  waitKey : Word8
  triggerLkey : Word8
  keyboardreport : ExtraKeyboardReport
  mousereport : MouseReport
  program : Nat
  code : Nat
  ip : Nat
  stackTop : Nat
  currentFrame : Nat
  stack : Nat
  mem : Nat → VByte
  writes : List (Nat × VByte)

/-- The storage of programs; a read may fail. -/
abbrev Storage := Nat → Option Word8

/-- What a step reads of the keyboard: the uptime, whether a logical key is pressed, and the keycode
    that is pressed for a HID keycode (`NO_KEY` for none). -/
structure Hardware where
  uptimems : BitVec 32
  checkKey : Word8 → Bool
  checkHidKey : Word8 → Word8

/-! ## Memory -/

namespace Vmstate

/-- Write one byte. -/
def poke (vm : Vmstate) (a : Nat) (v : VByte) : Vmstate :=
  { vm with mem := fun b => if b = a then v else vm.mem b, writes := (a, v) :: vm.writes }

/-- `AS_SHORT` as a value. -/
def shortAt (vm : Vmstate) (a : Nat) : VShort := shortOf (vm.mem a) (vm.mem (a + 1))

/-- `AS_SHORT` as a target. -/
def pokeShort (vm : Vmstate) (a : Nat) (v : VShort) : Vmstate :=
  (vm.poke a (lowByte v)).poke (a + 1) (highByte v)

/-- A pointer is stored in two bytes. -/
def pokePointer (vm : Vmstate) (a : Nat) (p : Nat) : Vmstate := vm.pokeShort a (BitVec.ofNat 16 p)

/-- A stored pointer. -/
def pointerAt (vm : Vmstate) (a : Nat) : Nat := (vm.shortAt a).toNat

/-- `PUSH_BYTE`. -/
def pushByte (vm : Vmstate) (v : VByte) : Vmstate :=
  { vm with stackTop := vm.stackTop + 1 }.poke (vm.stackTop + 1) v

/-- `TOP_BYTE`, the value of `POP_BYTE`. -/
def topByte (vm : Vmstate) : VByte := vm.mem vm.stackTop

/-- `PUSH_SHORT`. -/
def pushShort (vm : Vmstate) (v : VShort) : Vmstate :=
  { vm with stackTop := vm.stackTop + 2 }.pokeShort (vm.stackTop + 1) v

/-- `TOP_SHORT`, the value of `POP_SHORT`. -/
def topShort (vm : Vmstate) : VShort := vm.shortAt (vm.stackTop - 1)

/-- The effect of `POP_BYTE` (`n` = 1) and `POP_SHORT` (`n` = 2). -/
def drop (vm : Vmstate) (n : Nat) : Vmstate := { vm with stackTop := vm.stackTop - n }

/-- The address of `current_frame->locals[addr]`; the index is signed. -/
def localAddr (vm : Vmstate) (addr : VByte) : Nat := (vm.currentFrame + 6 + addr.toInt).toNat

/-- The address of `stack[addr]`; the index is signed. -/
def globalAddr (vm : Vmstate) (addr : VByte) : Nat := (vm.stack + addr.toInt).toNat

/-- Pop a value of a type to an address. -/
def popTo (vm : Vmstate) (t : Typ) (a : Nat) : Vmstate :=
  match t with
  | .byte => (vm.drop 1).poke a vm.topByte
  | .short => (vm.drop 2).pokeShort a vm.topShort
  | .void => vm

/-- Push the value of a type at an address. -/
def pushFrom (vm : Vmstate) (t : Typ) (a : Nat) : Vmstate :=
  match t with
  | .byte => vm.pushByte (vm.mem a)
  | .short => vm.pushShort (vm.shortAt a)
  | .void => vm

/-! ## Reading the program -/

/-- `NEXTINSTR`: the next byte of the program; the machine crashes when it cannot be read. -/
def nextInstr (vm : Vmstate) (s : Storage) (k : Word8 → Vmstate → Vmstate) : Vmstate :=
  match s vm.ip with
  | some b => k b { vm with ip := vm.ip + 1 }
  | none => { vm with ip := vm.ip + 1, state := .crashed }

/-- `NEXTSHORT`. -/
def nextShort (vm : Vmstate) (s : Storage) (k : VShort → Vmstate → Vmstate) : Vmstate :=
  match s vm.ip, s (vm.ip + 1) with
  | some lo, some hi => k (shortOf lo hi) { vm with ip := vm.ip + 2 }
  | _, _ => { vm with state := .crashed }

/-! ## Instructions -/

/-- The binary operators on two words of one width. -/
def binaryOp {n : Nat} (op : ArithOp) (a b : BitVec n) : BitVec n :=
  match op with
  | .add => a + b
  | .subtract => a - b
  | .multiply => a * b
  | .divide => vmDivide a b
  | .mod => vmMod a b
  | .and => a &&& b
  | .or => a ||| b
  | .xor => a ^^^ b
  | _ => a

/-- `BADD` to `BRSHIFT`. -/
def arithByte (vm : Vmstate) (op : ArithOp) : Vmstate :=
  match op with
  | .complement => (vm.drop 1).pushByte (~~~vm.topByte)
  | .cmp => ((vm.drop 1).drop 1).pushByte (vmCmp (vm.drop 1).topByte vm.topByte)
  | .lshift => ((vm.drop 1).drop 1).pushByte (vmLshift (vm.drop 1).topByte vm.topByte)
  | .rshift => ((vm.drop 1).drop 1).pushByte (vmRshift (vm.drop 1).topByte vm.topByte)
  | _ => ((vm.drop 1).drop 1).pushByte (binaryOp op (vm.drop 1).topByte vm.topByte)

/-- `SADD` to `SRSHIFT`; the count of a shift is a byte. -/
def arithShort (vm : Vmstate) (op : ArithOp) : Vmstate :=
  match op with
  | .complement => (vm.drop 2).pushShort (~~~vm.topShort)
  | .cmp => ((vm.drop 2).drop 2).pushByte (vmCmp (vm.drop 2).topShort vm.topShort)
  | .lshift => ((vm.drop 1).drop 2).pushShort (vmLshift (vm.drop 1).topShort vm.topByte)
  | .rshift => ((vm.drop 1).drop 2).pushShort (vmRshift (vm.drop 1).topShort vm.topByte)
  | _ => ((vm.drop 2).drop 2).pushShort (binaryOp op (vm.drop 2).topShort vm.topShort)

/-- `GOTO`: the offset counts from the jump instruction, three bytes before. -/
def goto (vm : Vmstate) (s : Storage) : Vmstate :=
  vm.nextShort s fun offset vm => { vm with ip := (vm.ip + offset.toInt - 3).toNat }

/-- `vm_do_return`. -/
def doReturn (vm : Vmstate) : Vmstate :=
  { vm with
    stackTop := vm.pointerAt (vm.currentFrame + 2)
    ip := vm.pointerAt vm.currentFrame
    currentFrame := vm.pointerAt (vm.currentFrame + 4) }

/-- `BRET`, `SRET` and `RET`. -/
def ret (vm : Vmstate) (t : Typ) : Vmstate :=
  if vm.pointerAt vm.currentFrame = 0 then { vm with state := .stopped }
  else
    match t with
    | .byte => (vm.drop 1).doReturn.pushByte vm.topByte
    | .short => (vm.drop 2).doReturn.pushShort vm.topShort
    | .void => vm.doReturn

/-- Write bytes from an address on. -/
def pokeAll (vm : Vmstate) (a : Nat) : List VByte → Vmstate
  | [] => vm
  | v :: vs => (vm.poke a v).pokeAll (a + 1) vs

/-- `CALL`, once the method's entry is read: a new frame takes the place of the arguments. -/
def enter (vm : Vmstate) (nargs nlocals codeOffset : Nat) : Vmstate :=
  let args := (List.range nargs).map fun i => vm.mem (vm.stackTop - nargs + 1 + i)
  let top := vm.stackTop - nargs + 1
  let vm' := (((vm.pokePointer top vm.ip).pokePointer (top + 2) (top - 1)).pokePointer (top + 4)
    vm.currentFrame).pokeAll (top + 6) args
  { vm' with
    currentFrame := top
    stackTop := top + 6 + nlocals
    ip := vm.code + codeOffset }

/-- `CALL`; the number of the method is a signed byte. -/
def call (vm : Vmstate) (s : Storage) : Vmstate :=
  vm.nextInstr s fun methodid vm =>
    let m := (vm.program + 2 + 4 * BitVec.toInt methodid).toNat
    match s m, s (m + 1), s (m + 2), s (m + 3) with
    | some nargs, some nlocals, some lo, some hi =>
      vm.enter nargs.toNat nlocals.toNat (shortOf lo hi).toNat
    | _, _, _, _ => { vm with state := .crashed }

/-- The system calls. -/
def doSyscall (vm : Vmstate) (hw : Hardware) : SyscallOp → Vmstate
  | .pressKey =>
    let key := vm.topByte
    let vm := vm.drop 1
    -- the mouse keys are handled separately
    if (0xe8 : Word8) ≤ key then vm
    else { vm with keyboardreport := vm.keyboardreport.add key, state := .waitReport }
  | .releaseKey =>
    let key := vm.topByte
    let vm := vm.drop 1
    { vm with keyboardreport := vm.keyboardreport.remove key, state := .waitReport }
  | .pressMouseButtons =>
    let mask := vm.topByte &&& 0x1f
    let vm := vm.drop 1
    { vm with
      mousereport := { vm.mousereport with button := vm.mousereport.button ||| mask }
      state := .waitMouseReport }
  | .releaseMouseButtons =>
    let mask := vm.topByte &&& 0x1f
    let vm := vm.drop 1
    { vm with
      mousereport := { vm.mousereport with button := vm.mousereport.button &&& ~~~mask }
      state := .waitMouseReport }
  | .moveMouse =>
    let y := vm.topByte
    let x := (vm.drop 1).topByte
    let vm := (vm.drop 1).drop 1
    { vm with mousereport := { vm.mousereport with x := x, y := y }, state := .waitMouseReport }
  | .checkKey =>
    (vm.drop 1).pushByte (if hw.checkHidKey vm.topByte = NO_KEY then 0 else 1)
  | .checkPhysKey =>
    let lkey := if vm.topByte = 0 then vm.triggerLkey else vm.topByte
    (vm.drop 1).pushByte (if hw.checkKey lkey then 1 else 0)
  | .waitKey =>
    waitRest { vm with state := .waitKey }
  | .waitPhysKey =>
    waitRest { vm with state := .waitPhysKey }
  | .delay =>
    let delay := if vm.topShort.slt 0 then 0 else vm.topShort
    { vm.drop 2 with delayEndMs := hw.uptimems + delay.setWidth 32, state := .delay }
  | .buzzAt => (vm.drop 1).drop 2
  | .buzz => vm.drop 2
  | .getUptimeMS => vm.pushShort (hw.uptimems &&& 0x7fff |>.setWidth 16)
  | .getUptime => vm.pushShort ((hw.uptimems / 1000) &&& 0x7fff |>.setWidth 16)
where
  /-- `wait_rest`. -/
  waitRest (vm : Vmstate) : Vmstate :=
    let delay := vm.topShort
    let vm := vm.drop 2
    { vm.drop 1 with
      waitKey := vm.topByte
      delayEndMs := if delay.sle 0 then 0 else hw.uptimems + delay.setWidth 32 }

/-- The `switch` over the instruction. -/
def exec (vm : Vmstate) (hw : Hardware) (s : Storage) : Opcode → Vmstate
  | .store t => vm.nextInstr s fun addr vm => vm.popTo t (vm.localAddr addr)
  | .storeN t i => vm.popTo t (vm.currentFrame + 6 + i)
  | .load t => vm.nextInstr s fun addr vm => vm.pushFrom t (vm.localAddr addr)
  | .loadN t i => vm.pushFrom t (vm.currentFrame + 6 + i)
  | .gstore t => vm.nextInstr s fun addr vm => vm.popTo t (vm.globalAddr addr)
  | .gload t => vm.nextInstr s fun addr vm => vm.pushFrom t (vm.globalAddr addr)
  | .const .byte => vm.nextInstr s fun c vm => vm.pushByte c
  | .const _ => vm.nextShort s fun c vm => vm.pushShort c
  | .constN .byte i => vm.pushByte (BitVec.ofNat 8 i)
  | .constN _ i => vm.pushShort (BitVec.ofNat 16 i)
  | .dup .byte => vm.pushByte vm.topByte
  | .dup _ => vm.pushShort vm.topShort
  | .pop .byte => vm.drop 1
  | .pop _ => (vm.drop 1).drop 1
  | .swap => (vm.poke vm.stackTop (vm.mem (vm.stackTop - 1))).poke (vm.stackTop - 1) vm.topByte
  | .arith op .byte => vm.arithByte op
  | .arith op _ => vm.arithShort op
  | .b2s => (vm.drop 1).pushShort (vmB2S vm.topByte)
  | .s2b => (vm.drop 2).pushByte (vmS2B vm.topShort)
  | .cond c =>
    if vmIfCheck c vm.topByte then (vm.drop 1).goto s
    else { vm.drop 1 with ip := vm.ip + 2 }
  | .goto => vm.goto s
  | .nop => vm
  | .call => vm.call s
  | .ret t => vm.ret t
  | .vmexit => { vm with state := .stopped }
  | .syscall op => vm.doSyscall hw op

/-- Read an instruction and execute it. -/
def fetch (vm : Vmstate) (hw : Hardware) (s : Storage) : Vmstate :=
  vm.nextInstr s fun b vm =>
    match decode b with
    | some op => vm.exec hw s op
    | none => vm

/-- The end of a wait for a key, with the result to push. -/
def endWait (vm : Vmstate) (v : VByte) : Vmstate :=
  { vm.pushByte v with delayEndMs := 0, state := .running }

/-- The time limit of a wait has passed. -/
def timeout (vm : Vmstate) (hw : Hardware) : Bool :=
  vm.delayEndMs ≠ 0 ∧ vm.delayEndMs < hw.uptimems

/-- `vm_step`. -/
def step (vm : Vmstate) (hw : Hardware) (s : Storage) : Vmstate :=
  if ! vm.state.active then vm
  -- the guard is meant to keep room for a short
  else if vm.stack + (STACK_SIZE - 2) < vm.stackTop then { vm with state := .crashed }
  else
    match vm.state with
    | .waitReport | .waitMouseReport => vm
    | .waitPhysKey =>
      let vm := if vm.waitKey = 0 then { vm with waitKey := vm.triggerLkey } else vm
      let pressed := hw.checkKey vm.waitKey
      if pressed || vm.timeout hw then vm.endWait (if pressed then 1 else 0) else vm
    | .waitKey =>
      let r := hw.checkHidKey vm.waitKey
      if r ≠ NO_KEY || vm.timeout hw then vm.endWait (if r = NO_KEY then 0 else r) else vm
    | .delay =>
      if vm.delayEndMs < hw.uptimems then
        { vm with delayEndMs := 0, state := .running }.fetch hw s
      else vm
    | _ => vm.fetch hw s

/-! ## Start -/

/-- `vm_init_vm`, when the program's header can be read. -/
def init (p : Nat) (s : Storage) (stack : Nat) (mem : Nat → VByte) : Option Vmstate :=
  (s (p + 1)).map fun nmethods =>
    { state := .stopped
      delayEndMs := 0
      waitKey := 0
      triggerLkey := 0
      keyboardreport := .clear
      mousereport := ⟨0, 0, 0⟩
      program := p
      code := p + 6 + 4 * nmethods.toNat - 4
      ip := 0
      stackTop := 0
      currentFrame := 0
      stack := stack
      mem := mem
      writes := [] }

/-- `vm_start_vm`: a frame for method 0 above the globals. -/
def start (vm : Vmstate) (s : Storage) (triggerLkey : Word8) : Vmstate :=
  if vm.state = .noProgram ∨ vm.state.active then vm
  else
    let vm := { vm with state := .running, triggerLkey := triggerLkey }
    match s vm.program, s (vm.program + 1), s (vm.program + 2), s (vm.program + 3),
        s (vm.program + 4), s (vm.program + 5) with
    | some nglobals, some _, some _, some nlocals, some lo, some hi =>
      let frame := vm.stack + nglobals.toNat
      { (vm.pokePointer frame 0).pokePointer (frame + 4) 0 with
        ip := vm.code + (shortOf lo hi).toNat
        currentFrame := frame
        stackTop := frame + 6 + nlocals.toNat }
    | _, _, _, _, _, _ => vm

end Vmstate

end KeyboardFirmware.Vm
