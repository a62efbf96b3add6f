/-
  A compiled program as the machine reads it.

  `binaryProgram` narrows counts, sizes and offsets to the fields of the image, and the operand of
  `CALL` is a signed byte.  `Agrees` says that the machine, reading the image with its own structures,
  finds what the program has; `Fits` that everything has room in its field.  For every program that
  the compiler accepts they are the same (`image_agrees_iff`): the compiler does not look.
-/
import KeyboardFirmware.Compiler.Declared
import KeyboardFirmware.Compiler.Layout
import KeyboardFirmware.Compiler.Parser
import KeyboardFirmware.Vm.Loaded

namespace KeyboardFirmware.Vm

open Compiler

/-! ## The machine's structures -/

/-- `method`. -/
structure Method where
  nargs : Nat
  nlocals : Nat
  codeOffset : Nat
  deriving DecidableEq, Repr

/-- `program->methods[i]`. -/
def methodAt (s : Storage) (program : Nat) (i : Int) : Option Method :=
  let m := (program + 2 + 4 * i).toNat
  match s m, s (m + 1), s (m + 2), s (m + 3) with
  | some nargs, some nlocals, some lo, some hi =>
    some ⟨nargs.toNat, nlocals.toNat, (shortOf lo hi).toNat⟩
  | _, _, _, _ => none

/-- `program->nglobals`. -/
def nglobalsAt (s : Storage) (program : Nat) : Option Nat := (s program).map (·.toNat)

/-- Where `vm_init_vm` finds the code. -/
def codeBase (s : Storage) (program : Nat) : Option Nat :=
  (s (program + 1)).map fun nmethods => program + 6 + 4 * nmethods.toNat - 4

variable {s : Storage} {p : Nat}

theorem init_code {stack : Nat} {mem : Nat → VByte} :
    (Vmstate.init p s stack mem).map (·.code) = codeBase s p := by
  unfold Vmstate.init codeBase
  cases s (p + 1) <;> rfl

/-- `CALL` reads the entry of its operand. -/
theorem call_eq (vm : Vmstate) (s : Storage) : vm.call s = vm.nextInstr s fun methodid vm =>
    match methodAt s vm.program (BitVec.toInt methodid) with
    | some m => vm.enter m.nargs m.nlocals m.codeOffset
    | none => { vm with state := .crashed } := by
  unfold Vmstate.call
  congr 1
  funext methodid vm
  simp only [methodAt]
  split <;> simp_all

/-- A program starts in its first method, above its globals. -/
theorem start_eq {vm : Vmstate} {m : Method} {n : Nat} (triggerLkey : Word8)
    (hidle : ¬(vm.state = .noProgram ∨ vm.state.active)) (hcode : codeBase s vm.program = some vm.code)
    (hn : nglobalsAt s vm.program = some n) (hm : methodAt s vm.program 0 = some m) :
    (vm.start s triggerLkey).ip = vm.code + m.codeOffset ∧
      (vm.start s triggerLkey).currentFrame = vm.stack + n ∧
      (vm.start s triggerLkey).stackTop = vm.stack + n + 6 + m.nlocals := by
  obtain ⟨nglobals, h0, rfl⟩ := Option.map_eq_some_iff.mp hn
  obtain ⟨nmethods, h1, -⟩ := Option.map_eq_some_iff.mp hcode
  have haddr : ((vm.program : Int) + 2 + 4 * (0 : Int)).toNat = vm.program + 2 := by omega
  simp only [methodAt, haddr] at hm
  split at hm
  case h_2 => exact (nomatch hm)
  case h_1 nargs nlocals lo hi h2 h3 h4 h5 =>
  obtain rfl := Option.some.inj hm
  simp [Vmstate.start, if_neg hidle, h0, h1, h2, h3, h4, h5, Vmstate.pokePointer]

/-! ## Reading a list of bytes -/

theorem Storage.Holds.left {bytes bytes' : List Word8} (h : s.Holds p (bytes ++ bytes')) :
    s.Holds p bytes := by
  intro i b hb
  refine h i b ?_
  rw [List.getElem?_append_left (List.getElem?_eq_some_iff.mp hb).1]
  exact hb

theorem Storage.Holds.right {bytes bytes' : List Word8} (h : s.Holds p (bytes ++ bytes')) :
    s.Holds (p + bytes.length) bytes' := by
  intro i b hb
  rw [Nat.add_assoc]
  refine h _ b ?_
  rw [List.getElem?_append_right (Nat.le_add_right _ _), Nat.add_sub_cancel_left]
  exact hb

/-- Parts that stand one after the other. -/
theorem Storage.Holds.flatten : ∀ {parts : List (List Word8)} {a : Nat}, s.Holds a parts.flatten →
    ∀ (i : Nat) l, parts[i]? = some l → s.Holds (a + ((parts.take i).map List.length).sum) l
  | [], _, _, _, _, hl => (nomatch hl)
  | part :: parts, a, h, i, l, hl => by
    rw [List.flatten_cons] at h
    cases i with
    | zero =>
      obtain rfl := Option.some.inj hl
      exact h.left
    | succ i =>
      have hrest := Storage.Holds.flatten h.right i l hl
      rw [List.take_succ_cons, List.map_cons, List.sum_cons, ← Nat.add_assoc]
      exact hrest

/-! ## The image -/

/-- Where the code of a method starts in an image at `p`. -/
def codeStart (p : Nat) (ms : List BytecodeMethod) (i : Nat) : Nat :=
  p + 2 + 4 * ms.length + codeOffset ms i

/-- What the machine reads of an image. -/
structure Reads (bp : BytecodeProgram) (s : Storage) (p : Nat) : Prop where
  nglobals : nglobalsAt s p = some bp.nGlobals.toNat
  code : codeBase s p = some (p + 2 + 4 * (bp.methods.length % 256))
  method : ∀ (i : Nat) bm, bp.methods[i]? = some bm → methodAt s p i =
      some ⟨bm.argSize.toNat, bm.nLocals.toNat, codeOffset bp.methods i % 65536⟩ ∧
    CodeAt s (codeStart p bp.methods i) bm.body

theorem binaryProgram_reads {bp : BytecodeProgram} {image : List Word8}
    (h : binaryProgram bp = .ok image) (hs : s.Holds p image) : Reads bp s p := by
  simp only [binaryProgram, bind_eq_ok, Prod.exists] at h
  obtain ⟨index, programData, hcalc, h⟩ := h
  obtain rfl := Except.ok.inj h
  obtain ⟨hindex, hdata, hget⟩ := calculateMethods_ok hcalc
  have hheader := hs.left.left
  have htable := hs.left.right
  have hcode := hs.right
  have hwidth : ∀ l ∈ index, l.length = 4 := by
    intro l hl
    obtain ⟨i, hi⟩ := List.mem_iff_getElem?.mp hl
    have hlt : i < bp.methods.length := hindex ▸ (List.getElem?_eq_some_iff.mp hi).1
    have hentry := (hget i _ (List.getElem?_eq_getElem hlt)).1
    rw [hi] at hentry
    rw [Option.some.inj hentry]
    rfl
  have hwidths : ∀ i ≤ index.length, ((index.take i).map List.length).sum = 4 * i := by
    intro i hi
    rw [List.map_congr_left (g := fun _ => 4) fun l hl => hwidth l (List.mem_of_mem_take hl),
      List.map_const', List.sum_replicate_nat, List.length_take, Nat.min_eq_left hi, Nat.mul_comm]
  have htotal : index.flatten.length = 4 * bp.methods.length := by
    rw [List.length_flatten, ← hindex, ← hwidths index.length (Nat.le_refl _), List.take_length]
  have hcodes : programData.map List.length = bp.methods.map (·.body.length) := by
    refine List.ext_getElem? fun i => ?_
    rw [List.getElem?_map, List.getElem?_map]
    cases hm : bp.methods[i]? with
    | none =>
      have hge : programData[i]? = none := by
        rw [List.getElem?_eq_none_iff, hdata, ← List.getElem?_eq_none_iff]
        exact hm
      rw [hge]
      rfl
    | some m =>
      obtain ⟨-, code, hc, hbytes⟩ := hget i m hm
      rw [hc, Option.map_some, Option.map_some, length_of_mapM hbytes]
  refine ⟨congrArg (Option.map _) (hheader 0 bp.nGlobals rfl), ?_, fun i bm hbm => ?_⟩
  · show (s (p + 1)).map _ = _
    rw [hheader 1 _ rfl]
    show some (p + 6 + 4 * (bp.methods.length % 256) - 4) = _
    congr 1
    omega
  · obtain ⟨hentry, code, hc, hbytes⟩ := hget i bm hbm
    have hi : i < bp.methods.length := (List.getElem?_eq_some_iff.mp hbm).1
    refine ⟨?_, ?_⟩
    · have hread := htable.flatten i _ hentry
      rw [hwidths i (by omega)] at hread
      have haddr : ((p : Int) + 2 + 4 * (i : Int)).toNat = p + 2 + 4 * i := by omega
      have h0 : s (p + 2 + 4 * i) = some bm.argSize := hread 0 _ rfl
      have h1 : s (p + 2 + 4 * i + 1) = some bm.nLocals := hread 1 _ rfl
      have h2 : s (p + 2 + 4 * i + 2) =
          some (Compiler.lowByte (0 + BitVec.ofNat 16 (codeOffset bp.methods i))) := hread 2 _ rfl
      have h3 : s (p + 2 + 4 * i + 3) =
          some (Compiler.highByte (0 + BitVec.ofNat 16 (codeOffset bp.methods i))) := hread 3 _ rfl
      simp only [methodAt, haddr, h0, h1, h2, h3]
      rw [compiler_lowByte, compiler_highByte, shortOf_bytes]
      simp
    · have hbody := hcode.flatten i code hc
      have hlen : ([bp.nGlobals, BitVec.ofNat 8 bp.methods.length] ++ index.flatten).length =
          2 + 4 * bp.methods.length := by
        rw [List.length_append, htotal]
        rfl
      rw [hlen, List.map_take, hcodes, ← List.map_take, ← Nat.add_assoc] at hbody
      exact codeAt_of_holds hbytes hbody

/-! ## Agreement -/

/-- What the compiler makes of a text, step by step. -/
structure Compiled (parse : String → Except String (List Declaration)) (source : String)
    (decs : List Declaration) (ast : TProgram) (ir : IRProgram) (bp : BytecodeProgram)
    (image : List Word8) : Prop where
  parsed : parseProgram parse source = .ok decs
  typed : buildTProgram decs = .ok ast
  built : ∃ optast, optTProgram ast = .ok optast ∧ buildIR optast = .ok ir
  output : outputProgram ir = .ok bp
  binary : binaryProgram bp = .ok image

/-- The slots and the blocks that the back end makes for a method. -/
structure Outputs (ir : IRProgram) (irm : IRMethod) (gVars lVars : VarAllocation)
    (g : IRGraph Bytecode) : Prop where
  globals : ∃ n, allocateVarSlots ir.vars = .ok (gVars, n)
  locals : ∃ n, allocateVarSlots irm.vars = .ok (lVars, n)
  blocks : nmapM (outputBlock gVars lVars) irm.graph = .ok g

/-- The machine finds in the image at `p` what the source has. -/
structure Agrees (decs : List Declaration) (ast : TProgram) (ir : IRProgram) (bp : BytecodeProgram)
    (s : Storage) (p : Nat) : Prop where
  globals : nglobalsAt s p = some (bytesOf (globalTypes decs))
  main : ∃ d, (methodDecs decs)[0]? = some d ∧ d.nam = "main"
  /-- the entry of every method, and its code -/
  entry : ∀ (i : Nat) d, (methodDecs decs)[i]? = some d → ∃ base m bm, codeBase s p = some base ∧
    methodAt s p i = some m ∧ bp.methods[i]? = some bm ∧ m.nargs = bytesOf d.argTypes ∧
    m.nlocals = bytesOf d.localTypes ∧ base + m.codeOffset = codeStart p bp.methods i ∧
    CodeAt s (base + m.codeOffset) bm.body
  /-- a call in the source calls the method of its name -/
  named : ∀ m nam args t id args', buildTExpression (ast.tables m) (.methodInvocation nam args) =
    .ok (.methodCall t id args') → ((methodDecs decs).map (·.nam))[id]? = some nam
  /-- and the operand of its `CALL`, as the machine reads it, is the number of that method -/
  call : ∀ (i : Nat) irm gVars lVars g, ir.methods[i]? = some irm → Outputs ir irm gVars lVars g →
    ∀ q id, irm.graph.Reachable q.1 → InstrsAt irm.graph [.call id] q (q.1, q.2 + 1) →
      ∃ operand, CodeAt s (addr gVars lVars irm.graph g (codeStart p bp.methods i) q)
        [.call, .immediateByte operand] ∧ operand.toInt = id

/-- Every count, size and offset fits its field. -/
structure Fits (decs : List Declaration) (ir : IRProgram) (bp : BytecodeProgram) : Prop where
  globals : bytesOf (globalTypes decs) < 256
  methods : (methodDecs decs).length < 256
  locals : ∀ d ∈ methodDecs decs, bytesOf d.localTypes < 256
  offsets : ∀ i < (methodDecs decs).length, codeOffset bp.methods i < 65536
  calls : ∀ irm ∈ ir.methods, ∀ n b, irm.graph.Reachable n → irm.graph.node n = some b →
    ∀ id, .call id ∈ b.instrs → id < 128

variable {parse : String → Except String (List Declaration)} {source : String}
  {decs : List Declaration} {ast : TProgram} {ir : IRProgram} {bp : BytecodeProgram}
  {image : List Word8}

theorem compiled_iff :
    (do let decs ← parseProgram parse source; compile decs) = .ok image ↔
      ∃ decs ast ir bp, Compiled parse source decs ast ir bp image := by
  simp only [bind_eq_ok, compile]
  constructor
  · rintro ⟨decs, hparse, ast, htyped, optast, hopt, ir, hir, bp, hbp, hbinary⟩
    exact ⟨decs, ast, ir, bp, hparse, htyped, ⟨optast, hopt, hir⟩, hbp, hbinary⟩
  · rintro ⟨decs, ast, ir, bp, hparse, htyped, ⟨optast, hopt, hir⟩, hbp, hbinary⟩
    exact ⟨decs, hparse, ast, htyped, optast, hopt, ir, hir, bp, hbp, hbinary⟩

/-- The bytes of the arguments are among those of all variables. -/
theorem argBytes_le (d : MethodDec) : bytesOf d.argTypes ≤ bytesOf d.localTypes := by
  simp [bytesOf, MethodDec.localTypes]

namespace Compiled

/-- Every method of the source has its place in the tables and its graph. -/
theorem tables (h : Compiled parse source decs ast ir bp image) {i : Nat} {d : MethodDec}
    (hd : (methodDecs decs)[i]? = some d) : ∃ m irm, ast.methods[i]? = some m ∧
      ir.methods[i]? = some irm ∧ irm.vars = m.vars ∧ irm.argTypes = d.argTypes ∧
      varTypes m.vars = d.localTypes := by
  obtain ⟨optast, hopt, hir⟩ := h.built
  obtain rfl := Except.ok.inj hopt
  have hdecs := buildTProgram_declared h.typed
  obtain ⟨-, -, hir⟩ := buildIR_ok hir
  obtain ⟨m, hm, hargs⟩ : ∃ m, ast.methods[i]? = some m ∧ m.argTypes = d.argTypes := by
    have hget := congrArg (·[i]?) hdecs.args
    simpa [hd] using hget
  have hlocals : varTypes m.vars = d.localTypes := by
    have hget := congrArg (·[i]?) hdecs.locals
    simpa [hd, hm] using hget
  obtain ⟨irm, hirm, hbuilt⟩ := hir i { m with body := exMapStatements constantEval m.body }
    (by simp [constantEvalProgram, hm])
  obtain ⟨-, -, -, -, -, -, hirargs, hirvars⟩ := buildIRMethod_ok hbuilt
  exact ⟨m, irm, hm, hirm, hirvars, hirargs.trans hargs, hlocals⟩

/-- Every method of the source has its bytecode, in its place. -/
theorem method (h : Compiled parse source decs ast ir bp image) {i : Nat} {d : MethodDec}
    (hd : (methodDecs decs)[i]? = some d) : ∃ bm, bp.methods[i]? = some bm ∧
      bm.argSize = BitVec.ofNat 8 (bytesOf d.argTypes) ∧
      bm.nLocals = BitVec.ofNat 8 (bytesOf d.localTypes) := by
  obtain ⟨m, irm, -, hirm, hvars, hargs, hlocals⟩ := h.tables hd
  obtain ⟨gVars, -, -, hbp⟩ := outputProgram_ok h.output
  obtain ⟨bm, hbm, houtput⟩ := hbp i irm hirm
  obtain ⟨hargSize, hnLocals, -⟩ := outputMethod_ok houtput
  refine ⟨bm, hbm, ?_, ?_⟩
  · rw [hargSize, hargs]
  · rw [hnLocals, hvars, ← hlocals]
    rfl

theorem methods_length (h : Compiled parse source decs ast ir bp image) :
    bp.methods.length = (methodDecs decs).length := by
  obtain ⟨optast, hopt, hir⟩ := h.built
  obtain rfl := Except.ok.inj hopt
  have hargs := congrArg List.length (buildTProgram_declared h.typed).args
  obtain ⟨-, hlen, -⟩ := buildIR_ok hir
  obtain ⟨gVars, -, hlen', -⟩ := outputProgram_ok h.output
  simpa [hlen', hlen, constantEvalProgram] using hargs

theorem nGlobals (h : Compiled parse source decs ast ir bp image) :
    bp.nGlobals = BitVec.ofNat 8 (bytesOf (globalTypes decs)) := by
  obtain ⟨optast, hopt, hir⟩ := h.built
  obtain rfl := Except.ok.inj hopt
  obtain ⟨hvars, -⟩ := buildIR_ok hir
  obtain ⟨gVars, hglobals, -⟩ := outputProgram_ok h.output
  rw [allocateVarSlots_size hglobals, hvars, ← (buildTProgram_declared h.typed).globals]
  rfl

/-- What the machine finds of a method. -/
theorem entry (h : Compiled parse source decs ast ir bp image) (hs : s.Holds p image) {i : Nat}
    {d : MethodDec} (hd : (methodDecs decs)[i]? = some d) : ∃ bm, bp.methods[i]? = some bm ∧
      methodAt s p i = some ⟨bytesOf d.argTypes % 256, bytesOf d.localTypes % 256,
        codeOffset bp.methods i % 65536⟩ ∧
      CodeAt s (codeStart p bp.methods i) bm.body := by
  obtain ⟨bm, hbm, hargs, hlocals⟩ := h.method hd
  obtain ⟨hentry, hcode⟩ := (binaryProgram_reads h.binary hs).method i bm hbm
  rw [hargs, hlocals, BitVec.toNat_ofNat, BitVec.toNat_ofNat] at hentry
  exact ⟨bm, hbm, hentry, hcode⟩

/-- The slots and the blocks of a method are there. -/
theorem outputs (h : Compiled parse source decs ast ir bp image) {i : Nat} {irm : IRMethod}
    (hi : ir.methods[i]? = some irm) : ∃ gVars lVars g, Outputs ir irm gVars lVars g := by
  obtain ⟨gVars, hglobals, -, hbp⟩ := outputProgram_ok h.output
  obtain ⟨bm, -, houtput⟩ := hbp i irm hi
  obtain ⟨-, -, lVars, g, hlocals, hg, -⟩ := outputMethod_ok houtput
  exact ⟨gVars, lVars, g, ⟨_, hglobals⟩, ⟨_, hlocals⟩, hg⟩

/-- The code of a method lies in the image. -/
theorem scheduled (h : Compiled parse source decs ast ir bp image) (hs : s.Holds p image) {i : Nat}
    {irm : IRMethod} {gVars lVars : VarAllocation} {g : IRGraph Bytecode}
    (hi : ir.methods[i]? = some irm) (ho : Outputs ir irm gVars lVars g) :
    ∃ m code, Scheduled m irm gVars lVars g s (codeStart p bp.methods i) code := by
  obtain ⟨⟨n, hglobals⟩, ⟨k, hlocals⟩, hblocks⟩ := ho
  obtain ⟨optast, hopt, hir⟩ := h.built
  obtain ⟨-, hlen, hir⟩ := buildIR_ok hir
  obtain ⟨gVars', hglobals', -, hbp⟩ := outputProgram_ok h.output
  obtain ⟨rfl, -⟩ := Prod.mk.inj (Except.ok.inj (hglobals.symm.trans hglobals'))
  obtain ⟨bm, hbm, houtput⟩ := hbp i irm hi
  obtain ⟨-, -, lVars', g', hlocals', hblocks', hcode⟩ := outputMethod_ok houtput
  obtain ⟨rfl, -⟩ := Prod.mk.inj (Except.ok.inj (hlocals.symm.trans hlocals'))
  obtain rfl := Except.ok.inj (hblocks.symm.trans hblocks')
  have hlt : i < optast.methods.length := hlen ▸ (List.getElem?_eq_some_iff.mp hi).1
  obtain ⟨irm', hi', hbuilt⟩ := hir i _ (List.getElem?_eq_getElem hlt)
  obtain rfl := Option.some.inj (hi.symm.trans hi')
  exact ⟨_, bm.body, hbuilt, hblocks, hcode, ((binaryProgram_reads h.binary hs).method i bm hbm).2⟩

/-- The operand of a call is the number of the method, narrowed to a byte. -/
theorem call (h : Compiled parse source decs ast ir bp image) (hs : s.Holds p image) {i : Nat}
    {irm : IRMethod} {gVars lVars : VarAllocation} {g : IRGraph Bytecode}
    (hi : ir.methods[i]? = some irm) (ho : Outputs ir irm gVars lVars g) {q : Pos} {id : MethodID}
    (hq : irm.graph.Reachable q.1) (hin : InstrsAt irm.graph [.call id] q (q.1, q.2 + 1)) :
    CodeAt s (addr gVars lVars irm.graph g (codeStart p bp.methods i) q)
      [.call, .immediateByte (BitVec.ofNat 8 id)] := by
  obtain ⟨m, code, hsched⟩ := h.scheduled hs hi ho
  obtain ⟨c, hc, hat, -⟩ := hsched.instrsAt hq hin
  cases hc
  exact hat

end Compiled

/-- A number is read back from a signed byte when it has seven bits. -/
theorem toInt_ofNat_byte (n : Nat) : (BitVec.ofNat 8 n).toInt = n ↔ n < 128 := by
  rw [BitVec.toInt_eq_toNat_cond, BitVec.toNat_ofNat]
  split <;> omega

/-- **The image agrees with the source exactly when everything fits its field.**  The compiler accepts
    the program either way. -/
theorem image_agrees_iff (h : Compiled parse source decs ast ir bp image) (hs : s.Holds p image) :
    Agrees decs ast ir bp s p ↔ Fits decs ir bp := by
  obtain ⟨hglobals, hbase, -⟩ := binaryProgram_reads h.binary hs
  rw [h.nGlobals, BitVec.toNat_ofNat] at hglobals
  rw [h.methods_length] at hbase
  obtain ⟨typ, args, body, rest, hdecs⟩ := parseProgram_ok h.parsed
  have hmain : (methodDecs decs)[0]? = some ⟨typ, "main", args, body⟩ := by
    rw [hdecs]
    rfl
  constructor
  · intro ha
    -- the entry of a method that agrees
    have hentry : ∀ (i : Nat) d, (methodDecs decs)[i]? = some d →
        bytesOf d.localTypes % 256 = bytesOf d.localTypes ∧
        p + 2 + 4 * ((methodDecs decs).length % 256) + codeOffset bp.methods i % 65536 =
          codeStart p bp.methods i := by
      intro i d hd
      obtain ⟨base, m, -, hbase', hm, -, -, hlocals, hstart, -⟩ := ha.entry i d hd
      obtain ⟨bm, -, hm', -⟩ := h.entry hs hd
      obtain rfl := Option.some.inj (hbase'.symm.trans hbase)
      obtain rfl := Option.some.inj (hm.symm.trans hm')
      exact ⟨hlocals, hstart⟩
    have hcount : (methodDecs decs).length % 256 = (methodDecs decs).length := by
      have hstart := (hentry 0 _ hmain).2
      have hzero : codeOffset bp.methods 0 = 0 := rfl
      rw [codeStart, h.methods_length, hzero] at hstart
      omega
    refine ⟨?_, by omega, fun d hd => ?_, fun i hi => ?_, ?_⟩
    · have heq := Option.some.inj (hglobals.symm.trans ha.globals)
      omega
    · obtain ⟨i, hi⟩ := List.mem_iff_getElem?.mp hd
      have := (hentry i d hi).1
      omega
    · have hstart := (hentry i _ (List.getElem?_eq_getElem hi)).2
      rw [codeStart, h.methods_length, hcount] at hstart
      omega
    · intro irm hirm n b hn hb id hid
      obtain ⟨i, hi⟩ := List.mem_iff_getElem?.mp hirm
      obtain ⟨gVars, lVars, g, ho⟩ := h.outputs hi
      obtain ⟨before, after, hsplit⟩ := List.append_of_mem hid
      have hin : InstrsAt irm.graph [.call id] (n, before.length) (n, before.length + 1) :=
        ⟨rfl, b, hb, by rw [hsplit, List.drop_left]; exact ⟨after, rfl⟩⟩
      obtain ⟨operand, ⟨-, ⟨v, hv, hread⟩, -⟩, hoperand⟩ := ha.call i irm gVars lVars g hi ho _ id hn hin
      obtain ⟨-, ⟨v', hv', hread'⟩, -⟩ := h.call hs hi ho hn hin
      obtain rfl := Option.some.inj (hread.symm.trans hread')
      obtain rfl := Except.ok.inj hv
      rw [← Except.ok.inj hv'] at hoperand
      exact (toInt_ofNat_byte id).mp hoperand
  · intro hf
    have hcount := Nat.mod_eq_of_lt hf.methods
    refine ⟨by rw [hglobals, Nat.mod_eq_of_lt hf.globals], ⟨_, hmain, rfl⟩, fun i d hd => ?_,
      fun m nam args t id args' hcall => ?_, fun i irm gVars lVars g hi ho q id hq hin => ?_⟩
    · obtain ⟨bm, hbm, hm, hcode⟩ := h.entry hs hd
      obtain ⟨hi, -⟩ := List.getElem?_eq_some_iff.mp hd
      have hlocals := hf.locals d (List.mem_of_getElem? hd)
      have hargs := (argBytes_le d).trans_lt hlocals
      have hstart : p + 2 + 4 * ((methodDecs decs).length % 256) + codeOffset bp.methods i % 65536 =
          codeStart p bp.methods i := by
        rw [codeStart, h.methods_length, hcount, Nat.mod_eq_of_lt (hf.offsets i hi)]
      exact ⟨_, _, bm, hbase, hm, hbm, Nat.mod_eq_of_lt hargs, Nat.mod_eq_of_lt hlocals, hstart,
        hstart ▸ hcode⟩
    · exact methodInvocation_named (buildTProgram_checked h.typed) (buildTProgram_declared h.typed) hcall
    · obtain ⟨b, hb, after, hrest⟩ := hin.2
      have hid : .call id ∈ b.instrs :=
        List.mem_of_mem_drop (hrest ▸ List.mem_append_left _ List.mem_cons_self)
      refine ⟨BitVec.ofNat 8 id, h.call hs hi ho hq hin, (toInt_ofNat_byte id).mpr ?_⟩
      exact hf.calls irm (List.mem_of_getElem? hi) q.1 b hq hb id hid

/-- `void f(short a) { }  void main() { f(7); }` -/
def callOnce : List Declaration :=
  [.methodDeclaration .void "f" [(.short, "a")] [],
    .methodDeclaration .void "main" []
      [.expressionStatement (.methodInvocation "f" [.byteLiteral 7])]]

theorem callOnce_compiled : ∃ ast ir bp image,
    Compiled (fun _ => .ok callOnce) "void f(short a) { }  void main() { f(7); }" callOnce.reverse ast ir
      bp image := by
  have hsort : sortMainFirst callOnce = callOnce.reverse := by
    simp [sortMainFirst, callOnce, List.mergeSort, List.MergeSort.Internal.splitInTwo, mainFirst, isMain]
  obtain ⟨ast, ir, bp, image, htyped, hbuilt, houtput, hbinary⟩ : ∃ ast ir bp image,
      buildTProgram callOnce.reverse = .ok ast ∧ buildIR (constantEvalProgram ast) = .ok ir ∧
      outputProgram ir = .ok bp ∧ binaryProgram bp = .ok image :=
    ⟨_, _, _, _, rfl, rfl, rfl, rfl⟩
  have hparsed : parseProgram (fun _ => .ok callOnce) "void f(short a) { }  void main() { f(7); }" =
      .ok callOnce.reverse :=
    parseProgram_sorted rfl hsort rfl
  exact ⟨ast, ir, bp, image, hparsed, htyped, ⟨_, rfl, hbuilt⟩, houtput, hbinary⟩

/-- An image alone in storage. -/
theorem holds_image (image : List Word8) : Storage.Holds (fun a => image[a]?) 0 image := by
  intro i b hb
  simpa using hb

theorem image_agrees_iff_callOnce : ∃ decs ast ir bp image,
    Compiled (fun _ => .ok callOnce) "void f(short a) { }  void main() { f(7); }" decs ast ir bp image ∧
      (Agrees decs ast ir bp (fun a => image[a]?) 0 ↔ Fits decs ir bp) := by
  obtain ⟨ast, ir, bp, image, h⟩ := callOnce_compiled
  exact ⟨_, ast, ir, bp, image, h, image_agrees_iff h (holds_image image)⟩

/-- `void main() { }  void f(short a0, …, short a127) { }` -/
def manyArguments : List Declaration :=
  [.methodDeclaration .void "main" [] [],
    .methodDeclaration .void "f" ((List.range 128).map fun i => (.short, "a" ++ toString i)) []]

/-- The text of `manyArguments`. -/
def manyArgumentsText : String :=
  "void main() { }  void f(" ++
    String.intercalate ", " ((List.range 128).map fun i => "short a" ++ toString i) ++ ") { }"

set_option maxRecDepth 10000 in
/-- Its 256 bytes of arguments are none in the image. -/
theorem manyArguments_compiled : ∃ ast ir bp image,
    Compiled (fun _ => .ok manyArguments) manyArgumentsText manyArguments ast ir bp image ∧
      methodAt (fun a => image[a]?) 0 1 = some ⟨0, 0, 1⟩ := by
  have hsort : sortMainFirst manyArguments = manyArguments := by
    simp [sortMainFirst, manyArguments, List.mergeSort, List.MergeSort.Internal.splitInTwo, mainFirst,
      isMain]
  obtain ⟨ast, ir, bp, image, htyped, hbuilt, houtput, hbinary, hentry⟩ : ∃ ast ir bp image,
      buildTProgram manyArguments = .ok ast ∧ buildIR (constantEvalProgram ast) = .ok ir ∧
      outputProgram ir = .ok bp ∧ binaryProgram bp = .ok image ∧
      methodAt (fun a => image[a]?) 0 1 = some ⟨0, 0, 1⟩ :=
    ⟨_, _, _, _, rfl, rfl, rfl, rfl, rfl⟩
  have hparsed : parseProgram (fun _ => .ok manyArguments) manyArgumentsText = .ok manyArguments :=
    parseProgram_sorted rfl hsort rfl
  exact ⟨ast, ir, bp, image, ⟨hparsed, htyped, ⟨_, rfl, hbuilt⟩, houtput, hbinary⟩, hentry⟩

set_option maxRecDepth 10000 in
theorem image_disagrees_manyArguments : ∃ decs ast ir bp image,
    Compiled (fun _ => .ok manyArguments) manyArgumentsText decs ast ir bp image ∧
      methodAt (fun a => image[a]?) 0 1 = some ⟨0, 0, 1⟩ ∧
      ¬ Agrees decs ast ir bp (fun a => image[a]?) 0 := by
  obtain ⟨ast, ir, bp, image, h, hentry⟩ := manyArguments_compiled
  refine ⟨_, ast, ir, bp, image, h, hentry, fun ha => ?_⟩
  obtain ⟨base, m, bm, -, hm, -, hargs, -⟩ := ha.entry 1 _ rfl
  obtain rfl := Option.some.inj (hentry.symm.trans hm)
  exact absurd hargs (by decide)

end KeyboardFirmware.Vm
