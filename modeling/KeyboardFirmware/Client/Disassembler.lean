/-
  `program.cc`: the disassembler of the Qt client.

  `none` is a read outside the array.  A dump has the numbers that are printed, and `Dump.text` is the
  text.  The loop over a method is a sweep: each instruction says where the next one starts.
-/
import KeyboardFirmware.Lib.Sweep
import KeyboardFirmware.Vm.Instructions

namespace KeyboardFirmware.Disassembler

open Compiler Vm

/-- A `QByteArray`; its length is an `int`. -/
structure QByteArray where
  data : List Word8
  length_lt : data.length < 2 ^ 31

/-! ## Instructions -/

/-- `instructionNames`. -/
def instructionNames : List (Word8 × String) := [
  (0, "BSTORE"), (1, "BSTORE_0"), (2, "BSTORE_1"), (3, "BSTORE_2"), (4, "BSTORE_3"),
  (5, "SSTORE"), (6, "SSTORE_0"), (7, "SSTORE_1"), (8, "SSTORE_2"), (9, "SSTORE_3"),
  (10, "BLOAD"), (11, "BLOAD_0"), (12, "BLOAD_1"), (13, "BLOAD_2"), (14, "BLOAD_3"),
  (15, "SLOAD"), (16, "SLOAD_0"), (17, "SLOAD_1"), (18, "SLOAD_2"), (19, "SLOAD_3"),
  (20, "GBSTORE"), (21, "GBLOAD"), (22, "GSSTORE"), (23, "GSLOAD"),
  (24, "BCONST"), (25, "BCONST_0"), (26, "BCONST_1"), (27, "BCONST_2"), (28, "BCONST_3"),
  (29, "SCONST"), (30, "SCONST_0"), (31, "SCONST_1"), (32, "SCONST_2"), (33, "SCONST_3"),
  (34, "DUP"), (35, "DUP2"), (36, "POP"), (37, "POP2"), (38, "SWAP"),
  (48, "BADD"), (49, "BSUBTRACT"), (50, "BMULTIPLY"), (51, "BDIVIDE"), (52, "BMOD"), (53, "BAND"),
  (54, "BOR"), (55, "BXOR"), (56, "BNOT"), (57, "BCMP"), (58, "BLSHIFT"), (59, "BRSHIFT"),
  (60, "SADD"), (61, "SSUBTRACT"), (62, "SMULTIPLY"), (63, "SDIVIDE"), (64, "SMOD"), (65, "SAND"),
  (66, "SOR"), (67, "SXOR"), (68, "SNOT"), (69, "SCMP"), (70, "SLSHIFT"), (71, "SRSHIFT"),
  (72, "B2S"), (73, "S2B"),
  (74, "IFEQ"), (75, "IFNE"), (76, "IFLT"), (77, "IFGT"), (78, "IFGE"), (79, "IFLE"),
  (80, "GOTO"), (81, "NOP"), (82, "CALL"), (83, "BRET"), (84, "SRET"), (85, "RET"), (86, "VMEXIT"),
  (87, "PRESSKEY"), (88, "RELEASEKEY"), (89, "CHECKKEY"), (90, "CHECKPHYSKEY"), (91, "WAITKEY"),
  (92, "WAITPHYSKEY"), (95, "DELAY"), (96, "GETUPTIMEMS"), (97, "GETUPTIME"), (98, "BUZZ"),
  (99, "BUZZAT"), (100, "MOVEMOUSE"), (101, "PRESSMOUSEBUTTONS"), (102, "RELEASEMOUSEBUTTONS")]

/-- `nameInstruction`. -/
def nameInstruction (opcode : Word8) : String :=
  match instructionNames.lookup opcode with
  | some name => name.toLower
  | none => "INVALID_OPCODE"

/-- `BSTORE`, `SSTORE`, `BLOAD`, `SLOAD`, `GBLOAD`, `BCONST`, `GBSTORE`, `GSLOAD`, `GSSTORE` and
    `CALL`. -/
def byteOperand : List Word8 := [0, 5, 10, 15, 21, 24, 20, 23, 22, 82]

/-- `SCONST`. -/
def shortOperand : List Word8 := [29]

/-- `IFEQ`, `IFNE`, `IFLT`, `IFGT`, `IFGE`, `IFLE` and `GOTO`. -/
def jumpOperand : List Word8 := [74, 75, 76, 77, 78, 79, 80]

/-- A number with the digits of `base`. -/
def number (n base : Nat) : String := String.ofList (Nat.toDigits base n)

/-- What `prettyPrintInstruction` returns: a name and perhaps a number. -/
structure PrettyInstruction where
  name : String
  operand : Option (BitVec 32)
  deriving DecidableEq, Repr

/-- The string that is returned. -/
def PrettyInstruction.text (i : PrettyInstruction) : String :=
  match i.operand with
  | some value => i.name ++ " " ++ number value.toNat 16
  | none => i.name

/-- `memcpy` of a short. -/
def shortAt (bytes : List Word8) (p : Nat) : Option Word16 := do
  let lo ← bytes[p]?
  let hi ← bytes[p + 1]?
  some (shortOf lo hi)

/-- `Program::prettyPrintInstruction` at `p`; the first result is the moved pointer. -/
def prettyPrintInstruction (bytes : List Word8) (p : Nat) (pc : BitVec 32) :
    Option (Nat × PrettyInstruction) := do
  let opcode ← bytes[p]?
  let result := nameInstruction opcode
  if opcode ∈ byteOperand then
    let value ← bytes[p + 1]?
    some (p + 2, ⟨result, some (value.setWidth 32)⟩)
  else if opcode ∈ shortOperand then
    let value ← shortAt bytes (p + 1)
    some (p + 3, ⟨result, some (value.setWidth 32)⟩)
  else if opcode ∈ jumpOperand then
    let jumpOffset ← shortAt bytes (p + 1)
    some (p + 3, ⟨result, some (pc + jumpOffset.signExtend 32)⟩)
  else some (p + 1, ⟨result, none⟩)

/-! ## Programs -/

/-- A line of the dump. -/
structure Line where
  codeOffset : BitVec 32
  bytes : List Word8
  prettyInstruction : PrettyInstruction
  deriving DecidableEq, Repr

/-- The dump of a method. -/
structure MethodDump where
  nargs : Word8
  nlocals : Word8
  codeOffset : Word16
  lines : List Line
  deriving DecidableEq, Repr

/-- `programDump`, as data. -/
structure Dump where
  nglobals : Word8
  nmethods : Word8
  methods : List MethodDump
  deriving DecidableEq, Repr

/-- The text of a line. -/
def Line.text (l : Line) : String :=
  let digits (width n : Nat) : String := String.ofList ((Nat.toDigits 16 n).leftpad width '0')
  let bytes : String := String.join (l.bytes.map fun b => digits 2 b.toNat ++ " ")
  digits 8 l.codeOffset.toNat ++ ": " ++ String.ofList (bytes.toList.rightpad 15 ' ') ++ " " ++
    l.prettyInstruction.text ++ "\n"

/-- The text of a method. -/
def MethodDump.text (m : MethodDump) : String :=
  "# method: args=" ++ number m.nargs.toNat 10 ++ " locals=" ++ number m.nlocals.toNat 10 ++
    " code_offset=" ++ number m.codeOffset.toNat 10 ++ "\n" ++ String.join (m.lines.map Line.text)

/-- The text. -/
def Dump.text (d : Dump) : String :=
  "# Program: nglobals=" ++ number d.nglobals.toNat 10 ++ " nmethods=" ++ number d.nmethods.toNat 10 ++
    "\n" ++ String.join (d.methods.map MethodDump.text)

/-- The body of the loop over the code of a method; the first result is the next `codePtr`. -/
def disassembleInstruction (bytes : List Word8) (codeStart codePtr : Nat) : Option (Nat × Line) := do
  let codeOffset := BitVec.ofNat 32 (codePtr - codeStart)
  let (nextInstruction, prettyInstruction) ← prettyPrintInstruction bytes codePtr codeOffset
  let bytes ← (List.range' codePtr (nextInstruction - codePtr)).mapM fun p => bytes[p]?
  some (nextInstruction, ⟨codeOffset, bytes, prettyInstruction⟩)

theorem prettyPrintInstruction_lt {bytes : List Word8} {p q : Nat} {pc : BitVec 32}
    {i : PrettyInstruction} (h : prettyPrintInstruction bytes p pc = some (q, i)) : p < q := by
  obtain ⟨opcode, -, h⟩ := Option.bind_eq_some_iff.mp h
  dsimp only at h
  split at h
  · obtain ⟨value, -, h⟩ := Option.bind_eq_some_iff.mp h
    cases h
    omega
  split at h
  · obtain ⟨value, -, h⟩ := Option.bind_eq_some_iff.mp h
    cases h
    omega
  split at h
  · obtain ⟨value, -, h⟩ := Option.bind_eq_some_iff.mp h
    cases h
    omega
  · cases h
    omega

/-- The loop over the code of a method. -/
def codeReader (bytes : List Word8) (codeStart : Nat) : Lib.Reader Line where
  read := disassembleInstruction bytes codeStart
  lt := by
    intro codePtr nextInstruction line h
    obtain ⟨⟨q, i⟩, hpretty, h⟩ := Option.bind_eq_some_iff.mp h
    obtain ⟨bs, -, h⟩ := Option.bind_eq_some_iff.mp h
    cases h
    exact prettyPrintInstruction_lt hpretty

/-- `codeEnd`: the end of the array, or the start of the next method. -/
def codeEnd (bytes : List Word8) (nmethods mi : Nat) : Option Nat :=
  if mi + 1 = nmethods then some bytes.length
  else (shortAt bytes (2 + 4 * (mi + 1) + 2)).map fun codeOffset =>
    2 + 4 * nmethods + codeOffset.toNat

/-- The body of the loop over the methods. -/
def disassembleMethod (bytes : List Word8) (nmethods mi : Nat) : Option MethodDump := do
  let codeBase := 2 + 4 * nmethods
  let nargs ← bytes[2 + 4 * mi]?
  let nlocals ← bytes[2 + 4 * mi + 1]?
  let codeOffset ← shortAt bytes (2 + 4 * mi + 2)
  let codeEnd ← codeEnd bytes nmethods mi
  let codeStart := codeBase + codeOffset.toNat
  let lines ← (codeReader bytes codeStart).sweep codeEnd codeStart
  some ⟨nargs, nlocals, codeOffset, lines⟩

/-- What `Program::disassemble` prints. -/
def dump (programData : QByteArray) : Option Dump := do
  let nglobals ← programData.data[0]?
  let nmethods ← programData.data[1]?
  let methods ← (List.range nmethods.toNat).mapM (disassembleMethod programData.data nmethods.toNat)
  some ⟨nglobals, nmethods, methods⟩

/-- `Program::disassemble`. -/
def disassemble (programData : QByteArray) : Option String := (dump programData).map Dump.text

example : disassemble ⟨[0, 1, 0, 0, 0, 0, 81, 80, 0xff, 0xff], by decide⟩ = some
    "# Program: nglobals=0 nmethods=1\n# method: args=0 locals=0 code_offset=0\n00000000: 51              nop\n00000001: 50 ff ff        goto 0\n" := by
  decide +kernel

/-! ## Operands -/

/-- A property of all bytes. -/
theorem forall_byte {P : Word8 → Prop} (h : ∀ n : Fin 256, P (BitVec.ofFin n)) (b : Word8) : P b :=
  h b.toFin

/-- **The lists of the disassembler are those of the machine**: an operand is printed where the machine
    reads one, as a target where it jumps. -/
theorem operand_agrees (opcode : Word8) :
    (opcode ∈ byteOperand ↔ operandOf (decode opcode) = .byte) ∧
      (opcode ∈ shortOperand ↔ operandOf (decode opcode) = .short) ∧
      (opcode ∈ jumpOperand ↔ operandOf (decode opcode) = .jump) := by
  revert opcode
  exact forall_byte (by decide +kernel)

/-- The names are those of the opcodes. -/
theorem instructionNames_opcodes (opcode : Word8) :
    (instructionNames.lookup opcode).isSome = (decode opcode).isSome := by
  revert opcode
  exact forall_byte (by decide +kernel)

/-- A line for the instruction at `a`, and where the next one starts. -/
inductive LineAt (bytes : List Word8) (start a : Nat) : Nat → Line → Prop
  | plain {opcode : Word8} : bytes[a]? = some opcode → operandOf (decode opcode) = .none →
      LineAt bytes start a (a + 1)
        ⟨BitVec.ofNat 32 (a - start), [opcode], nameInstruction opcode, none⟩
  | byte {opcode value : Word8} : bytes[a]? = some opcode → operandOf (decode opcode) = .byte →
      bytes[a + 1]? = some value → LineAt bytes start a (a + 2)
        ⟨BitVec.ofNat 32 (a - start), [opcode, value], nameInstruction opcode,
          some (value.setWidth 32)⟩
  | short {opcode lo hi : Word8} : bytes[a]? = some opcode → operandOf (decode opcode) = .short →
      bytes[a + 1]? = some lo → bytes[a + 2]? = some hi → LineAt bytes start a (a + 3)
        ⟨BitVec.ofNat 32 (a - start), [opcode, lo, hi], nameInstruction opcode,
          some ((shortOf lo hi).setWidth 32)⟩
  | jump {opcode lo hi : Word8} : bytes[a]? = some opcode → operandOf (decode opcode) = .jump →
      bytes[a + 1]? = some lo → bytes[a + 2]? = some hi → LineAt bytes start a (a + 3)
        ⟨BitVec.ofNat 32 (a - start), [opcode, lo, hi], nameInstruction opcode,
          some (BitVec.ofNat 32 (a - start) + (shortOf lo hi).signExtend 32)⟩

variable {bytes : List Word8} {start a b : Nat} {l : Line}

/-- `prettyPrintInstruction`, by what the machine reads. -/
theorem prettyPrintInstruction_eq (bytes : List Word8) (p : Nat) (pc : BitVec 32) :
    prettyPrintInstruction bytes p pc = bytes[p]?.bind fun opcode =>
      match operandOf (decode opcode) with
      | .none => some (p + 1, ⟨nameInstruction opcode, none⟩)
      | .byte => bytes[p + 1]?.bind fun value =>
          some (p + 2, ⟨nameInstruction opcode, some (value.setWidth 32)⟩)
      | .short => (shortAt bytes (p + 1)).bind fun value =>
          some (p + 3, ⟨nameInstruction opcode, some (value.setWidth 32)⟩)
      | .jump => (shortAt bytes (p + 1)).bind fun value =>
          some (p + 3, ⟨nameInstruction opcode, some (pc + value.signExtend 32)⟩) := by
  unfold prettyPrintInstruction
  refine congrArg (Option.bind bytes[p]?) (funext fun opcode => ?_)
  obtain ⟨hbyte, hshort, hjump⟩ := operand_agrees opcode
  simp only [hbyte, hshort, hjump]
  cases operandOf (decode opcode) <;> rfl

theorem shortAt_eq_some {p : Nat} {v : Word16} :
    shortAt bytes p = some v ↔ ∃ lo hi, bytes[p]? = some lo ∧ bytes[p + 1]? = some hi ∧
      shortOf lo hi = v := by
  unfold shortAt
  constructor
  · intro h
    obtain ⟨lo, hlo, h⟩ := Option.bind_eq_some_iff.mp h
    obtain ⟨hi, hhi, h⟩ := Option.bind_eq_some_iff.mp h
    exact ⟨lo, hi, hlo, hhi, Option.some.inj h⟩
  · rintro ⟨lo, hi, hlo, hhi, rfl⟩
    rw [hlo, hhi]
    rfl

/-- A list has a result when all its elements have theirs. -/
theorem mapM_eq_some_iff {α β : Type} {f : α → Option β} :
    ∀ {xs : List α} {ys : List β}, xs.mapM f = some ys ↔ xs.map f = ys.map some
  | [], ys => by
    rw [List.mapM_nil, List.map_nil, eq_comm (a := []), List.map_eq_nil_iff]
    exact ⟨fun h => (Option.some.inj h).symm, fun h => by rw [h]; rfl⟩
  | x :: xs, ys => by
    rw [List.mapM_cons]
    constructor
    · intro h
      obtain ⟨y, hy, h⟩ := Option.bind_eq_some_iff.mp h
      obtain ⟨ys', hys, h⟩ := Option.bind_eq_some_iff.mp h
      obtain rfl := Option.some.inj h
      rw [List.map_cons, List.map_cons, hy, mapM_eq_some_iff.mp hys]
    · intro h
      cases ys with
      | nil => exact (nomatch h)
      | cons y ys =>
        obtain ⟨hy, hys⟩ := List.cons.inj h
        rw [hy, mapM_eq_some_iff.mpr hys]
        rfl

/-- What is printed at `a`, when the instruction and its bytes can be read. -/
theorem disassembleInstruction_eq {n : Nat} {i : PrettyInstruction} {bs : List Word8}
    (hpretty : prettyPrintInstruction bytes a (BitVec.ofNat 32 (a - start)) = some (a + n, i))
    (hbs : (List.range' a n).map (fun p => bytes[p]?) = bs.map some) :
    disassembleInstruction bytes start a = some (a + n, ⟨BitVec.ofNat 32 (a - start), bs, i⟩) := by
  unfold disassembleInstruction
  simp only [hpretty, Option.bind_some, Option.bind_eq_bind, Nat.add_sub_cancel_left, mapM_eq_some_iff.mpr hbs]

/-- **The loop prints the line of each instruction.** -/
theorem codeReader_read_iff :
    (codeReader bytes start).read a = some (b, l) ↔ LineAt bytes start a b l := by
  -- a line that is there is the one that is read
  have hread : ∀ {b l}, LineAt bytes start a b l → (codeReader bytes start).read a = some (b, l) := by
    intro b l h
    cases h with
    | plain hopcode hoperand =>
      refine disassembleInstruction_eq ?_ (by simp [hopcode])
      rw [prettyPrintInstruction_eq, hopcode, Option.bind_some, hoperand]
    | byte hopcode hoperand hvalue =>
      refine disassembleInstruction_eq ?_ (by simp [List.range', hopcode, hvalue])
      rw [prettyPrintInstruction_eq, hopcode, Option.bind_some, hoperand]
      simp only [hvalue, Option.bind_some]
    | short hopcode hoperand hlo hhi | jump hopcode hoperand hlo hhi =>
      refine disassembleInstruction_eq ?_ (by simp [List.range', hopcode, hlo, hhi])
      rw [prettyPrintInstruction_eq, hopcode, Option.bind_some, hoperand]
      simp only [shortAt_eq_some.mpr ⟨_, _, hlo, hhi, rfl⟩, Option.bind_some]
  refine ⟨fun h => ?_, hread⟩
  obtain ⟨⟨q, i⟩, hpretty, -⟩ := Option.bind_eq_some_iff.mp h
  rw [prettyPrintInstruction_eq] at hpretty
  obtain ⟨opcode, hopcode, hpretty⟩ := Option.bind_eq_some_iff.mp hpretty
  have hline : ∃ b l, LineAt bytes start a b l := by
    cases hoperand : operandOf (decode opcode) with
    | none => exact ⟨_, _, .plain hopcode hoperand⟩
    | byte =>
      simp only [hoperand] at hpretty
      obtain ⟨value, hvalue, -⟩ := Option.bind_eq_some_iff.mp hpretty
      exact ⟨_, _, .byte hopcode hoperand hvalue⟩
    | short =>
      simp only [hoperand] at hpretty
      obtain ⟨value, hvalue, -⟩ := Option.bind_eq_some_iff.mp hpretty
      obtain ⟨lo, hi, hlo, hhi, -⟩ := shortAt_eq_some.mp hvalue
      exact ⟨_, _, .short hopcode hoperand hlo hhi⟩
    | jump =>
      simp only [hoperand] at hpretty
      obtain ⟨value, hvalue, -⟩ := Option.bind_eq_some_iff.mp hpretty
      obtain ⟨lo, hi, hlo, hhi, -⟩ := shortAt_eq_some.mp hvalue
      exact ⟨_, _, .jump hopcode hoperand hlo hhi⟩
  obtain ⟨b', l', hline⟩ := hline
  obtain ⟨rfl, rfl⟩ := Prod.mk.inj (Option.some.inj (h.symm.trans (hread hline)))
  exact hline

/-! ## The machine at a line -/

/-- The number that is printed is the way from `start` to `place`.  From -2 ^ 15 on up to
    2 ^ 31 + 2 ^ 15, 32 bits tell one way from another. -/
def Line.LeadsTo (l : Line) (start place : Nat) : Prop :=
  ∃ target : Int, -2 ^ 15 ≤ target ∧ target < 2 ^ 31 + 2 ^ 15 ∧
    l.prettyInstruction.operand = some (BitVec.ofInt 32 target) ∧ place = (start + target).toNat

/-- A machine that stands at a line goes on behind its bytes, jumps where the line says, or calls and
    returns from behind its bytes. -/
def Line.Executed (s : Vm.Storage) (start : Nat) (l : Line) : Prop :=
  ∃ opcode, l.bytes.head? = some opcode ∧ ∀ (vm : Vmstate) hw, vm.ip = start + l.codeOffset.toNat →
    match moveOf (decode opcode) with
    | .on => (vm.fetch hw s).ip = vm.ip + l.bytes.length
    | .cond c =>
      if vmIfCheck c vm.topByte then l.LeadsTo start (vm.fetch hw s).ip
      else (vm.fetch hw s).ip = vm.ip + l.bytes.length
    | .goto => l.LeadsTo start (vm.fetch hw s).ip
    | .call => ∃ methodid : Word8, l.prettyInstruction.operand = some (methodid.setWidth 32) ∧
        ∀ m, methodAt s vm.program methodid.toInt = some m →
          vm.fetch hw s = (vm.advance l.bytes.length).enter m.nargs m.nlocals m.codeOffset
    | .ret t => vm.fetch hw s = (vm.advance l.bytes.length).ret t

section

variable {s : Vm.Storage} {p : Nat}

theorem leadsTo_jump {pc : Nat} {v : Word16} (hpc : pc < 2 ^ 31) {l : Line}
    (hl : l.prettyInstruction.operand = some (BitVec.ofNat 32 pc + v.signExtend 32)) (start : Nat) :
    l.LeadsTo start ((start + pc : Nat) + v.toInt).toNat := by
  have hv := v.toInt_lt
  have hv' := v.le_toInt
  refine ⟨pc + v.toInt, by omega, by omega, ?_, by rw [Int.natCast_add, Int.add_assoc]⟩
  rw [hl, BitVec.ofInt_add, BitVec.ofInt_natCast]
  rfl

/-- **Every line is as the machine reads it.** -/
theorem LineAt.executed (h : LineAt bytes start a b l) (hle : start ≤ a) (hlen : bytes.length < 2 ^ 31)
    (hs : s.Holds p bytes) : l.Executed s (p + start) := by
  -- where the machine stands
  have hip : ∀ {v : Word8} {ip : Nat}, bytes[a]? = some v →
      ip = p + start + (BitVec.ofNat 32 (a - start)).toNat → ip = p + a ∧ a - start < 2 ^ 31 := by
    intro v ip hv h
    have ha := (List.getElem?_eq_some_iff.mp hv).1
    rw [BitVec.toNat_ofNat, Nat.mod_eq_of_lt (by omega)] at h
    exact ⟨by omega, by omega⟩
  cases h with
  | @plain opcode hopcode hoperand =>
    refine ⟨opcode, rfl, fun vm hw hvm => ?_⟩
    obtain ⟨hvm, -⟩ := hip hopcode hvm
    rw [fetch_eq (by rw [hvm]; exact hs a _ hopcode)]
    cases hdec : decode opcode with
    | none => rfl
    | some op =>
      rw [hdec] at hoperand
      by_cases hret : ∃ t, op = .ret t
      · obtain ⟨t, rfl⟩ := hret
        rfl
      · have hret : ∀ t, op ≠ .ret t := fun t ht => hret ⟨t, ht⟩
        have hcall : op ≠ .call := by
          rintro rfl
          cases hoperand
        rw [moveOf_eq_on hret hcall (by rw [hoperand]; decide)]
        exact exec_ip_plain hoperand hret
  | @byte opcode value hopcode hoperand hvalue =>
    refine ⟨opcode, rfl, fun vm hw hvm => ?_⟩
    obtain ⟨hvm, -⟩ := hip hopcode hvm
    rw [fetch_eq (by rw [hvm]; exact hs a _ hopcode)]
    have hv : s (vm.advance 1).ip = some value := by
      show s (vm.ip + 1) = some value
      rw [hvm]
      exact hs (a + 1) _ hvalue
    cases hdec : decode opcode with
    | none =>
      rw [hdec] at hoperand
      cases hoperand
    | some op =>
      rw [hdec] at hoperand
      by_cases hcall : op = .call
      · subst hcall
        refine ⟨value, rfl, fun m hm => ?_⟩
        show (vm.advance 1).call s = _
        rw [call_eq, nextInstr_eq hv]
        have hat : methodAt s ((vm.advance 1).advance 1).program value.toInt = some m := hm
        simp only [hat]
        rfl
      · have hret : ∀ t, op ≠ .ret t := by
          rintro t rfl
          cases hoperand
        rw [moveOf_eq_on hret hcall (by rw [hoperand]; decide)]
        exact exec_ip_byte hoperand hcall hv
  | @short opcode lo hi hopcode hoperand hlo hhi =>
    refine ⟨opcode, rfl, fun vm hw hvm => ?_⟩
    obtain ⟨hvm, -⟩ := hip hopcode hvm
    rw [fetch_eq (by rw [hvm]; exact hs a _ hopcode)]
    have hlo : s (vm.advance 1).ip = some lo := by
      show s (vm.ip + 1) = some lo
      rw [hvm]
      exact hs (a + 1) _ hlo
    have hhi : s ((vm.advance 1).ip + 1) = some hi := by
      show s (vm.ip + 1 + 1) = some hi
      rw [hvm]
      exact hs (a + 2) _ hhi
    cases hdec : decode opcode with
    | none =>
      rw [hdec] at hoperand
      cases hoperand
    | some op =>
      rw [hdec] at hoperand
      have hmove : moveOf (some op) = .on := by
        refine moveOf_eq_on ?_ ?_ (by rw [hoperand]; decide)
        · rintro t rfl
          cases hoperand
        · rintro rfl
          cases hoperand
      rw [hmove]
      exact exec_ip_short hoperand hlo hhi
  | @jump opcode lo hi hopcode hoperand hlo hhi =>
    refine ⟨opcode, rfl, fun vm hw hvm => ?_⟩
    obtain ⟨hvm, hpc⟩ := hip hopcode hvm
    rw [fetch_eq (by rw [hvm]; exact hs a _ hopcode)]
    -- where a jump leads
    have hgoto : ∀ {l : Line}, l.prettyInstruction.operand =
        some (BitVec.ofNat 32 (a - start) + (shortOf lo hi).signExtend 32) →
        ∀ vm' : Vmstate, vm'.ip = vm.ip + 1 → l.LeadsTo (p + start) (vm'.goto s).ip := by
      intro l hl vm' hvm'
      have hlo : s vm'.ip = some lo := by
        rw [hvm', hvm]
        exact hs (a + 1) _ hlo
      have hhi : s (vm'.ip + 1) = some hi := by
        rw [hvm', hvm]
        exact hs (a + 2) _ hhi
      rw [goto_ip hlo hhi]
      have hat : (vm'.ip : Int) - 1 = (p + start + (a - start) : Nat) := by omega
      rw [hat]
      exact leadsTo_jump hpc hl (p + start)
    cases hdec : decode opcode with
    | none =>
      rw [hdec] at hoperand
      cases hoperand
    | some op =>
      rw [hdec] at hoperand
      cases op with
      | goto => exact hgoto rfl _ rfl
      | cond c =>
        show if vmIfCheck c vm.topByte then _ else _
        by_cases hc : vmIfCheck c vm.topByte
        · rw [if_pos hc]
          have htaken : (vm.advance 1).exec hw s (.cond c) = ((vm.advance 1).drop 1).goto s := if_pos hc
          simp only [htaken]
          exact hgoto rfl _ rfl
        · rw [if_neg hc]
          have hpassed : (vm.advance 1).exec hw s (.cond c) =
              { (vm.advance 1).drop 1 with ip := (vm.advance 1).ip + 2 } := if_neg hc
          simp only [hpassed]
          rfl
      | const t => cases t <;> cases hoperand
      | _ => cases hoperand

end

end KeyboardFirmware.Disassembler
