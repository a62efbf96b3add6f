/-
  `Output.hs`: slots for variables, instructions as bytecode, the order of the blocks with the
  jumps between them, and the binary program.

  What Haskell leaves to a run-time exception (`error`, `fromJust` of nothing, a missing clause for
  void) is an `exception` here.
-/
import KeyboardFirmware.Compiler.BlockIR
import KeyboardFirmware.Lib.DepthFirst
import Mathlib.Data.List.Sort

namespace KeyboardFirmware.Compiler

open Vm (CondOp)

abbrev Word8 := BitVec 8
abbrev Word16 := BitVec 16

instance word8LawfulBEq : LawfulBEq Word8 := inferInstance

/-- `Bytecode`; `arith` stands for the twelve of `ADD` to `RSHIFT`. -/
inductive Bytecode where
  | immediateByte (b : Word8)
  | relocation (n : Nat)
  | store (t : Typ)
  | storeN (t : Typ) (i : Nat)
  | load (t : Typ)
  | loadN (t : Typ) (i : Nat)
  | gstore (t : Typ)
  | gload (t : Typ)
  | bconst
  | bconstN (v : VByte)
  | sconst
  | sconstN (v : VShort)
  | dup (t : Typ)
  | pop (t : Typ)
  | swap (t : Typ)
  | arith (op : ArithOp) (t : Typ)
  | b2s
  | s2b
  | cond (c : CondOp)
  | goto
  | nop
  | call
  | ret (t : Typ)
  | vmexit
  | syscall (op : SyscallOp)
  deriving DecidableEq, Repr

/-- The place of an operator in its block of opcodes. -/
def ArithOp.code : ArithOp → Word8
  | .add => 0
  | .subtract => 1
  | .multiply => 2
  | .divide => 3
  | .mod => 4
  | .and => 5
  | .or => 6
  | .xor => 7
  | .complement => 8
  | .cmp => 9
  | .lshift => 10
  | .rshift => 11

/-- The opcodes of the conditional jumps. -/
def condByte : CondOp → Word8
  | .ifEq => 74
  | .ifNe => 75
  | .ifLt => 76
  | .ifGt => 77
  | .ifGe => 78
  | .ifLe => 79

/-- The opcodes of the system calls. -/
def syscallByte : SyscallOp → Word8
  | .pressKey => 87
  | .releaseKey => 88
  | .checkKey => 89
  | .checkPhysKey => 90
  | .waitKey => 91
  | .waitPhysKey => 92
  | .delay => 95
  | .getUptimeMS => 96
  | .getUptime => 97
  | .buzz => 98
  | .buzzAt => 99
  | .moveMouse => 100
  | .pressMouseButtons => 101
  | .releaseMouseButtons => 102

/-- `bytecodeByte`. -/
def bytecodeByte : Bytecode → ThrowsError Word8
  | .immediateByte b => .ok b
  | .relocation _ => .error (.exception "Stray relocation")
  | .store .byte => .ok 0
  | .store .short => .ok 5
  | .storeN .byte i => .ok (1 + BitVec.ofNat 8 i)
  | .storeN .short i => .ok (6 + BitVec.ofNat 8 i)
  | .load .byte => .ok 10
  | .load .short => .ok 15
  | .loadN .byte i => .ok (11 + BitVec.ofNat 8 i)
  | .loadN .short i => .ok (16 + BitVec.ofNat 8 i)
  | .gstore .byte => .ok 20
  | .gstore .short => .ok 22
  | .gload .byte => .ok 21
  | .gload .short => .ok 23
  | .bconst => .ok 24
  | .bconstN v => .ok (25 + v)
  | .sconst => .ok 29
  | .sconstN v => .ok (30 + v.setWidth 8)
  | .dup .byte => .ok 34
  | .dup .short => .ok 35
  | .pop .byte => .ok 36
  | .pop .short => .ok 37
  | .swap .byte => .ok 38
  | .swap .short => .error (.exception "Short swap not implemented")
  | .arith op .byte => .ok (48 + op.code)
  | .arith op .short => .ok (60 + op.code)
  | .b2s => .ok 72
  | .s2b => .ok 73
  | .cond c => .ok (condByte c)
  | .goto => .ok 80
  | .nop => .ok 81
  | .call => .ok 82
  | .ret .byte => .ok 83
  | .ret .short => .ok 84
  | .ret .void => .ok 85
  | .vmexit => .ok 86
  | .syscall op => .ok (syscallByte op)
  | _ => .error (.exception "no opcode for void")

/-! ## Slots -/

/-- `VarAllocation`. -/
abbrev VarAllocation := List (VariableID × Nat × Typ)

/-- `typeSize`, and `sizeOf` of arguments. -/
def typeSize : Typ → ThrowsError Word8
  | .byte => .ok 1
  | .short => .ok 2
  | .void => .error (.exception "no size for void")

/-- `allocateVarSlots`. -/
def allocateVarSlots (vars : List TVariable) : ThrowsError (VarAllocation × Word8) :=
  vars.foldlM (fun (m : VarAllocation × Word8) v => do
    let size ← typeSize v.typ
    .ok ((v.id, m.2.toNat, v.typ) :: m.1, m.2 + size)) ([], 0)

/-- `varLookup`. -/
def varLookup (vs : VarAllocation) (i : VariableID) : ThrowsError (Nat × Typ) :=
  maybeToError (.mapLookupError "VariableAllocation" (toString i)) (vs.lookup i)

/-! ## Instructions -/

/-- `lowByte` of an `Int16`. -/
def lowByte (s : VShort) : Word8 := s.setWidth 8

/-- `highByte`. -/
def highByte (s : VShort) : Word8 := (s >>> 8).setWidth 8

/-- `outputInstruction`: the code so far is reversed. -/
def outputInstruction (gVars lVars : VarAllocation) (rest : List Bytecode) :
    IRInstruction → ThrowsError (List Bytecode)
  | .store i => do
    let (varSlot, varType) ← varLookup lVars i
    .ok (if varSlot < 4 then .storeN varType varSlot :: rest
      else .immediateByte (BitVec.ofNat 8 varSlot) :: .store varType :: rest)
  | .load i => do
    let (varSlot, varType) ← varLookup lVars i
    .ok (if varSlot < 4 then .loadN varType varSlot :: rest
      else .immediateByte (BitVec.ofNat 8 varSlot) :: .load varType :: rest)
  | .gload i => do
    let (varSlot, varType) ← varLookup gVars i
    .ok (.immediateByte (BitVec.ofNat 8 varSlot) :: .gload varType :: rest)
  | .gstore i => do
    let (varSlot, varType) ← varLookup gVars i
    -- the opcode is the one of a load, in the source too
    .ok (.immediateByte (BitVec.ofNat 8 varSlot) :: .gload varType :: rest)
  | .bconst b => .ok <|
    if BitVec.sle 0 b ∧ BitVec.slt b 4 then .bconstN b :: rest
    else .immediateByte b :: .bconst :: rest
  | .sconst s => .ok <|
    if BitVec.sle 0 s ∧ BitVec.slt s 4 then .sconstN s :: rest
    else .immediateByte (highByte s) :: .immediateByte (lowByte s) :: .sconst :: rest
  | .dup typ => .ok (.dup typ :: rest)
  | .pop typ => .ok (.pop typ :: rest)
  | .swap typ => .ok (.swap typ :: rest)
  | .arith typ op => .ok (.arith op typ :: rest)
  | .b2s => .ok (.b2s :: rest)
  | .s2b => .ok (.s2b :: rest)
  | .call i => .ok (.immediateByte (BitVec.ofNat 8 i) :: .call :: rest)
  | .syscall op => .ok (.syscall op :: rest)
  | .return typ => .ok (.ret typ :: rest)
  | .exit => .ok (.vmexit :: rest)
  | .dummy _ => .ok rest

/-- `outputBlock`. -/
def outputBlock (gVars lVars : VarAllocation) (instrs : List IRInstruction) :
    ThrowsError (List Bytecode) := do
  let revCode ← instrs.foldlM (outputInstruction gVars lVars) []
  .ok revCode.reverse

/-- `nmapM`: a computation on every block. -/
def nmapM {α β : Type} (f : List α → ThrowsError (List β)) (g : IRGraph α) :
    ThrowsError (IRGraph β) := do
  let blocks ← g.nodes.mapM fun n => do
    let b ← maybeToError (.exception "fromJust") (g.node n)
    let is ← f b.instrs
    .ok (n, IRNode.mk is b.edges)
  .ok ⟨g.size, fun n => blocks.lookup n⟩

/-! ## The order of the blocks -/

/-- The position in the derived order of edge labels: the default edge is last. -/
def IREdge.rank : IREdge → Nat
  | .conditional .ifEq => 0
  | .conditional .ifNe => 1
  | .conditional .ifLt => 2
  | .conditional .ifGt => 3
  | .conditional .ifLe => 4
  | .conditional .ifGe => 5
  | .default => 6

/-- `lsucSort`. -/
def lsucSort (es : List (IREdge × Nat)) : List (IREdge × Nat) :=
  es.insertionSort fun a b => a.1.rank ≤ b.1.rank

/-- `xdfsWith` with `lsucSort`; there are no more visits than nodes. -/
def xdfsWith {α : Type} (g : IRGraph α) : List Nat → List Nat :=
  Lib.depthFirst (fun n => (lsucSort (g.out n)).map (·.2)) (fun n => (g.node n).isSome) g.size []

/-- `orderBlocks`. -/
def orderBlocks {α : Type} (g : IRGraph α) : List Nat := xdfsWith g [0]

/-- `linkage`: the jump for an edge, before the blocks `next`. -/
def linkage (next : List Nat) : IREdge × Nat → List Bytecode
  | (.default, n) => if next.head? = some n then [] else [.goto, .relocation n, .nop]
  | (.conditional op, n) => [.cond op, .relocation n, .nop]

/-- The code of a block with its jumps. -/
def blockData (next : List Nat) (b : IRNode Bytecode) : List Bytecode :=
  b.instrs ++ (lsucSort b.edges).flatMap (linkage next)

/-- `scheduleBlocks'`: where each block starts, and the code. -/
def scheduleBlocks' (g : IRGraph Bytecode) :
    List Nat → List (Nat × Nat) → Nat → ThrowsError (List (Nat × Nat) × List Bytecode)
  | [], placement, _ => .ok (placement, [])
  | node :: rest, placement, pos => do
    let b ← maybeToError (.exception "fromJust") (g.node node)
    let data := blockData rest b
    let (placement', restData) ←
      scheduleBlocks' g rest ((node, pos) :: placement) (pos + data.length)
    .ok (placement', data ++ restData)

/-- `handleRelocations`. -/
def handleRelocations (placement : List (Nat × Nat)) (pos : Nat) :
    List Bytecode → ThrowsError (List Bytecode)
  | [] => .ok []
  | .relocation n :: .nop :: rest => do
    let targetPos ← maybeToError (.exception "fromJust") (placement.lookup n)
    -- from the jump instruction, not the reloc itself
    let offset := BitVec.ofInt 16 (targetPos - (pos - 1))
    let rest' ← handleRelocations placement (pos + 2) rest
    .ok (.immediateByte (lowByte offset) :: .immediateByte (highByte offset) :: rest')
  | h :: rest => do
    let rest' ← handleRelocations placement (pos + 1) rest
    .ok (h :: rest')

/-- `scheduleBlocks`. -/
def scheduleBlocks (g : IRGraph Bytecode) : ThrowsError (List Bytecode) := do
  let (placement, instructions) ← scheduleBlocks' g (orderBlocks g) [] 0
  handleRelocations placement 0 instructions

/-! ## Programs -/

/-- `BytecodeMethod`. -/
structure BytecodeMethod where
  nLocals : Word8
  argSize : Word8
  body : List Bytecode

/-- `BytecodeProgram`. -/
structure BytecodeProgram where
  nGlobals : Word8
  methods : List BytecodeMethod

/-- `argLength`. -/
def argLength (ts : List Typ) : ThrowsError Word8 := do
  let sizes ← ts.mapM typeSize
  .ok sizes.sum

/-- `outputMethod`. -/
def outputMethod (globalMap : VarAllocation) (m : IRMethod) : ThrowsError BytecodeMethod := do
  let (localMap, nLocals) ← allocateVarSlots m.vars
  let bcGraph ← nmapM (outputBlock globalMap localMap) m.graph
  let bytecodes ← scheduleBlocks bcGraph
  let argSize ← argLength m.argTypes
  .ok ⟨nLocals, argSize, bytecodes⟩

/-- `outputProgram`. -/
def outputProgram (p : IRProgram) : ThrowsError BytecodeProgram := do
  let (globalMap, nGlobals) ← allocateVarSlots p.vars
  let methods ← p.methods.mapM (outputMethod globalMap)
  .ok ⟨nGlobals, methods⟩

/-- `calculateMethods`: the entries of the method table, and the codes. -/
def calculateMethods : Word16 → List BytecodeMethod →
    ThrowsError (List (List Word8) × List (List Word8))
  | _, [] => .ok ([], [])
  | pos, m :: rest => do
    let (restidx, restbody) ← calculateMethods (pos + BitVec.ofNat 16 m.body.length) rest
    let code ← m.body.mapM bytecodeByte
    .ok ([m.argSize, m.nLocals, lowByte pos, highByte pos] :: restidx, code :: restbody)

/-- `binaryProgram`. -/
def binaryProgram (p : BytecodeProgram) : ThrowsError (List Word8) := do
  let (index, programData) ← calculateMethods 0 p.methods
  .ok ([p.nGlobals, BitVec.ofNat 8 p.methods.length] ++ index.flatten ++ programData.flatten)

/-- `compile'`, after the parser. -/
def compile (decs : List Declaration) : ThrowsError (List Word8) := do
  let ast ← buildTProgram decs
  let optast ← optTProgram ast
  let ir ← buildIR optast
  let bytecode ← outputProgram ir
  binaryProgram bytecode

end KeyboardFirmware.Compiler
