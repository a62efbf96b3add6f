/-
  The instructions of the machine, and where they begin in the code of a method.

  An instruction is an opcode with the operand that the machine reads behind it (`operandOf`), and
  leaves the pointer behind that operand unless it jumps, calls or returns (`moveOf`).  The code that
  the compiler makes is a row of such instructions (`Instructions`), whatever its graph.
-/
import KeyboardFirmware.Vm.Image

namespace KeyboardFirmware.Vm

open Compiler

/-! ## Operands -/

/-- What the machine reads behind an opcode. -/
inductive Operand where
  | none
  | byte
  | short
  | jump
  deriving DecidableEq, Repr

/-- The operand of an instruction; a byte that is no opcode has none. -/
def operandOf : Option Opcode → Operand
  | some (.store _) | some (.load _) | some (.gstore _) | some (.gload _) | some .call => .byte
  | some (.const .byte) => .byte
  | some (.const _) => .short
  | some (.cond _) | some .goto => .jump
  | _ => .none

/-- The bytes of an operand. -/
def Operand.length : Operand → Nat
  | .none => 0
  | .byte => 1
  | .short | .jump => 2

/-- The bytes of an instruction. -/
def instructionLength (opcode : Word8) : Nat := 1 + (operandOf (decode opcode)).length

/-! ## The machine at an instruction -/

section

variable {s : Storage} {vm : Vmstate} {hw : Hardware} {op : Opcode}

/-- The machine reads an opcode and executes it. -/
theorem fetch_eq {opcode : Word8} (hs : s vm.ip = some opcode) : vm.fetch hw s =
    match decode opcode with
    | some op => (vm.advance 1).exec hw s op
    | none => vm.advance 1 := by
  simp only [Vmstate.fetch, Vmstate.nextInstr, hs]
  rfl

theorem nextInstr_eq {v : Word8} (hs : s vm.ip = some v) (k : Word8 → Vmstate → Vmstate) :
    vm.nextInstr s k = k v (vm.advance 1) := by
  simp only [Vmstate.nextInstr, hs]
  rfl

theorem nextShort_eq {lo hi : Word8} (hlo : s vm.ip = some lo) (hhi : s (vm.ip + 1) = some hi)
    (k : VShort → Vmstate → Vmstate) : vm.nextShort s k = k (shortOf lo hi) (vm.advance 2) := by
  simp only [Vmstate.nextShort, hlo, hhi]
  rfl

theorem doSyscall_ip (op : SyscallOp) : (vm.doSyscall hw op).ip = vm.ip := by
  cases op <;> simp only [Vmstate.doSyscall]
  case pressKey =>
    split <;> rfl
  all_goals rfl

/-- An instruction without an operand, other than a return, leaves the pointer behind its opcode. -/
theorem exec_ip_plain (hop : operandOf (some op) = .none) (hret : ∀ t, op ≠ .ret t) :
    (vm.exec hw s op).ip = vm.ip := by
  cases op with
  | storeN t i => exact popTo_ip t _
  | loadN t i => exact pushFrom_ip t _
  | arith op t =>
    cases t with
    | byte => exact arithByte_ip op
    | short | void => exact arithShort_ip op
  | syscall op => exact doSyscall_ip op
  | ret t => exact absurd rfl (hret t)
  | constN t i | dup t | pop t => cases t <;> rfl
  | const t => cases t <;> cases hop
  | store | load | gstore | gload | cond | goto | call => cases hop
  | swap | b2s | s2b | nop | vmexit => rfl

/-- One with a byte, other than a call, leaves it behind the byte. -/
theorem exec_ip_byte (hop : operandOf (some op) = .byte) (hcall : op ≠ .call) {v : Word8}
    (hv : s vm.ip = some v) : (vm.exec hw s op).ip = vm.ip + 1 := by
  cases op with
  | store t | gstore t =>
    simp only [Vmstate.exec, nextInstr_eq hv]
    exact popTo_ip t _
  | load t | gload t =>
    simp only [Vmstate.exec, nextInstr_eq hv]
    exact pushFrom_ip t _
  | const t =>
    cases t with
    | byte =>
      simp only [Vmstate.exec, nextInstr_eq hv]
      rfl
    | short | void => cases hop
  | call => exact absurd rfl hcall
  | _ => cases hop

/-- One with a short. -/
theorem exec_ip_short (hop : operandOf (some op) = .short) {lo hi : Word8} (hlo : s vm.ip = some lo)
    (hhi : s (vm.ip + 1) = some hi) : (vm.exec hw s op).ip = vm.ip + 2 := by
  cases op with
  | const t =>
    cases t with
    | byte => cases hop
    | short | void =>
      simp only [Vmstate.exec, nextShort_eq hlo hhi]
      rfl
  | _ => cases hop

/-- A jump is taken from its opcode. -/
theorem goto_ip {lo hi : Word8} (hlo : s vm.ip = some lo) (hhi : s (vm.ip + 1) = some hi) :
    (vm.goto s).ip = (vm.ip - 1 + (shortOf lo hi).toInt).toNat := by
  simp only [Vmstate.goto, nextShort_eq hlo hhi]
  show (((vm.ip + 2 : Nat) : Int) + (shortOf lo hi).toInt - 3).toNat = _
  congr 1
  omega

end

/-- How the machine leaves an instruction. -/
inductive Move where
  | on
  | cond (c : CondOp)
  | goto
  | call
  | ret (t : Typ)
  deriving DecidableEq, Repr

/-- The move of an instruction; a byte that is no opcode is passed over. -/
def moveOf : Option Opcode → Move
  | some (.cond c) => .cond c
  | some .goto => .goto
  | some .call => .call
  | some (.ret t) => .ret t
  | _ => .on

theorem moveOf_eq_on {op : Opcode} (hret : ∀ t, op ≠ .ret t) (hcall : op ≠ .call)
    (hjump : operandOf (some op) ≠ .jump) : moveOf (some op) = .on := by
  cases op with
  | ret t => exact absurd rfl (hret t)
  | call => exact absurd rfl hcall
  | cond | goto => exact absurd rfl hjump
  | _ => rfl

/-! ## Rows of instructions -/

/-- An instruction at `pos`: an opcode and its operand.  A jump leads to one of `T`, as far as its two
    bytes reach. -/
def IsInstruction (T : Nat → Prop) (pos : Nat) (c : List Bytecode) : Prop :=
  ∃ c0 op operands, c = c0 :: operands ∧ opcodeOf c0 = some op ∧
    operands.length = (operandOf (some op)).length ∧ (∀ b ∈ operands, ∃ v, b = .immediateByte v) ∧
    (operandOf (some op) = .jump → ∃ t, T t ∧ operands = jumpTo id pos t)

/-- Instructions one behind the other, from `pos` on. -/
inductive Instructions (T : Nat → Prop) : Nat → List (List Bytecode) → Prop
  | nil (pos : Nat) : Instructions T pos []
  | cons {pos : Nat} {c : List Bytecode} {cs : List (List Bytecode)} : IsInstruction T pos c →
      Instructions T (pos + c.length) cs → Instructions T pos (c :: cs)

/-- Where an instruction begins, or the end. -/
def Boundary (cs : List (List Bytecode)) (t : Nat) : Prop :=
  ∃ ds es, cs = ds ++ es ∧ t = ds.flatten.length

section

variable {T T' : Nat → Prop} {pos : Nat} {c : List Bytecode} {cs ds : List (List Bytecode)}

theorem IsInstruction.mono (h : IsInstruction T pos c) (hT : ∀ t, T t → T' t) :
    IsInstruction T' pos c := by
  obtain ⟨c0, op, operands, hc, hop, hlen, himm, hjump⟩ := h
  refine ⟨c0, op, operands, hc, hop, hlen, himm, fun h => ?_⟩
  obtain ⟨t, ht, hoperands⟩ := hjump h
  exact ⟨t, hT t ht, hoperands⟩

theorem Instructions.mono (h : Instructions T pos cs) (hT : ∀ t, T t → T' t) :
    Instructions T' pos cs := by
  induction h with
  | nil pos => exact .nil pos
  | cons hc _ ih => exact .cons (hc.mono hT) ih

theorem Instructions.append (hc : Instructions T pos cs)
    (hd : Instructions T (pos + cs.flatten.length) ds) : Instructions T pos (cs ++ ds) := by
  induction hc with
  | nil pos => exact hd
  | cons hc _ ih =>
    refine .cons hc (ih ?_)
    rwa [List.flatten_cons, List.length_append, ← Nat.add_assoc] at hd

/-- An instruction without an operand. -/
theorem isInstruction_plain {c0 : Bytecode} {op : Opcode} (hop : opcodeOf c0 = some op)
    (hoperand : operandOf (some op) = .none) : IsInstruction T pos [c0] := by
  refine ⟨c0, op, [], rfl, hop, by rw [hoperand]; rfl, fun b hb => (nomatch hb), fun h => ?_⟩
  rw [hoperand] at h
  cases h

/-- One with a byte. -/
theorem isInstruction_byte {c0 : Bytecode} {op : Opcode} {v : Word8} (hop : opcodeOf c0 = some op)
    (hoperand : operandOf (some op) = .byte) : IsInstruction T pos [c0, .immediateByte v] := by
  refine ⟨c0, op, _, rfl, hop, by rw [hoperand]; rfl, fun b hb => ?_, fun h => ?_⟩
  · exact ⟨v, List.mem_singleton.mp hb⟩
  · rw [hoperand] at h
    cases h

/-- The code of an instruction of the graph is one of the machine, or none. -/
theorem instrCode_instruction {gVars lVars : VarAllocation} {i : IRInstruction}
    (h : instrCode gVars lVars i = .ok c) : c = [] ∨ IsInstruction T pos c := by
  cases i <;> simp only [instrCode, bind_eq_ok, Except.ok.injEq] at h
  case store | load =>
    obtain ⟨⟨slot, t⟩, -, rfl⟩ := h
    right
    dsimp only
    split
    · rename_i hslot
      exact isInstruction_plain (dif_pos hslot) rfl
    · exact isInstruction_byte rfl rfl
  case gload | gstore =>
    obtain ⟨⟨slot, t⟩, -, rfl⟩ := h
    exact .inr (isInstruction_byte rfl rfl)
  case bconst v =>
    subst h
    right
    split
    · rename_i hv
      exact isInstruction_plain (dif_pos (toNat_lt_four hv (by decide))) rfl
    · exact isInstruction_byte rfl rfl
  case sconst v =>
    subst h
    right
    split
    · rename_i hv
      exact isInstruction_plain (dif_pos (toNat_lt_four hv (by decide))) rfl
    · refine ⟨.sconst, .const .short, _, rfl, rfl, rfl, fun b hb => ?_, fun h => by cases h⟩
      rcases List.mem_pair.mp hb with rfl | rfl
      · exact ⟨_, rfl⟩
      · exact ⟨_, rfl⟩
  case call =>
    subst h
    exact .inr (isInstruction_byte rfl rfl)
  case dummy => exact .inl h.symm
  all_goals
    subst h
    exact .inr (isInstruction_plain rfl rfl)

theorem instrsCode_instructions {gVars lVars : VarAllocation} (is : List IRInstruction) :
    ∀ {code : List Bytecode} (pos : Nat), instrsCode gVars lVars is = .ok code →
      ∃ cs, cs.flatten = code ∧ Instructions T pos cs := by
  induction is with
  | nil =>
    intro code pos h
    cases h
    exact ⟨[], rfl, .nil pos⟩
  | cons i is ih =>
    intro code pos h
    obtain ⟨c, code', hc, hcode, rfl⟩ := instrsCode_cons.mp h
    have hfirst : c = [] ∨ IsInstruction T pos c := instrCode_instruction hc
    rcases hfirst with rfl | hinstr
    · exact ih pos hcode
    · obtain ⟨cs, rfl, hcs⟩ := ih (pos + c.length) hcode
      exact ⟨c :: cs, rfl, .cons hinstr hcs⟩

/-- The jumps of a block lead to the starts of the blocks behind its edges. -/
theorem linkCode_instructions (start : Nat → Nat) (next : List Nat) (es : List (IREdge × Nat))
    (hT : ∀ e ∈ es, T (start e.2)) :
    ∀ pos, ∃ cs, cs.flatten = linkCode start next pos es ∧ Instructions T pos cs := by
  have hjump : ∀ {c0 op n pos}, T (start n) → opcodeOf c0 = some op → operandOf (some op) = .jump →
      IsInstruction T pos (c0 :: jumpTo start pos n) := by
    intro c0 op n pos ht hop hoperand
    refine ⟨c0, op, _, rfl, hop, by rw [hoperand]; rfl, fun b hb => ?_, fun _ => ⟨start n, ht, rfl⟩⟩
    rcases List.mem_pair.mp hb with rfl | rfl
    · exact ⟨_, rfl⟩
    · exact ⟨_, rfl⟩
  induction es with
  | nil => exact fun pos => ⟨[], rfl, .nil pos⟩
  | cons e es ih =>
    intro pos
    obtain ⟨e, n⟩ := e
    have ht : T (start n) := hT _ List.mem_cons_self
    replace ih := ih fun e he => hT e (List.mem_cons_of_mem _ he)
    obtain ⟨cs, hcs, hinstr⟩ := ih (pos + 3)
    cases e with
    | default =>
      unfold linkCode
      split
      · exact ih pos
      · exact ⟨_ :: cs, by rw [List.flatten_cons, hcs], .cons (hjump ht rfl rfl) hinstr⟩
    | conditional op => exact ⟨_ :: cs, by rw [List.flatten_cons, hcs]; rfl, .cons (hjump ht rfl rfl) hinstr⟩

theorem Boundary.append_left (cs : List (List Bytecode)) {t : Nat} (h : Boundary ds t) :
    Boundary (cs ++ ds) (cs.flatten.length + t) := by
  obtain ⟨before, after, rfl, rfl⟩ := h
  exact ⟨cs ++ before, after, (List.append_assoc ..).symm, by simp⟩

variable {g : IRGraph Bytecode}

/-- The code of the blocks of an order is a row of instructions, and every block begins with one. -/
theorem placedCode_instructions {start : Nat → Nat} (order : List Nat)
    (hnodes : ∀ n ∈ order, ∃ b, g.node n = some b ∧
      (∀ pos, ∃ cs, cs.flatten = b.instrs ∧ Instructions T pos cs) ∧
      ∀ e ∈ b.edges, T (start e.2)) :
    ∀ pos, ∃ cs, cs.flatten = placedCode g start order pos ∧ Instructions T pos cs ∧
      ∀ n ∈ order, ∃ t, Boundary cs t ∧ startAt g order pos n = pos + t := by
  induction order with
  | nil => exact fun pos => ⟨[], rfl, .nil pos, fun n hn => (nomatch hn)⟩
  | cons m rest ih =>
    intro pos
    obtain ⟨b, hb, hcode, hedges⟩ := hnodes m List.mem_cons_self
    obtain ⟨cs, hcs, hinstrs⟩ := hcode pos
    obtain ⟨ls, hls, hlinks⟩ := linkCode_instructions start rest (lsucSort b.edges)
      (fun e he => hedges e ((lsucSort_perm _).mem_iff.mp he)) (pos + b.instrs.length)
    obtain ⟨ds, hds, hrest, hstarts⟩ := ih (fun n hn => hnodes n (List.mem_cons_of_mem _ hn))
      (pos + (blockData rest b).length)
    have hblock : (cs ++ ls).flatten = blockCode start rest pos b := by
      rw [List.flatten_append, hcs, hls]
      rfl
    have hlen : (cs ++ ls).flatten.length = (blockData rest b).length := by
      rw [hblock, blockCode_length]
    refine ⟨cs ++ ls ++ ds, ?_, ?_, fun n hn => ?_⟩
    · rw [List.flatten_append, hblock, hds]
      simp only [placedCode, hb]
    · refine (hinstrs.append (hcs ▸ hlinks)).append ?_
      rw [hlen]
      exact hrest
    · by_cases hne : n = m
      · exact ⟨0, ⟨[], _, rfl, rfl⟩, by simp [startAt, hne]⟩
      · obtain ⟨t, ht, hstart⟩ := hstarts n ((List.mem_cons.mp hn).resolve_left hne)
        refine ⟨_, ht.append_left (cs ++ ls), ?_⟩
        simp only [startAt, if_neg hne, hb, Option.map_some, Option.getD_some, hstart, hlen]
        rw [Nat.add_assoc]

/-- **The code of a method is a row of instructions**, and its jumps lead to boundaries of them. -/
theorem scheduleBlocks_instructions {code : List Bytecode} {gVars lVars : VarAllocation}
    {G : IRGraph IRInstruction} (hG : G.WellFormed) (hg : nmapM (outputBlock gVars lVars) G = .ok g)
    (h : scheduleBlocks g = .ok code) :
    ∃ cs, cs.flatten = code ∧ Instructions (Boundary cs) 0 cs := by
  obtain ⟨-, hcov⟩ := nmapM_covers hG hg
  have hcode : ∀ n b, g.node n = some b → ∃ b0 : IRNode IRInstruction,
      instrsCode gVars lVars b0.instrs = .ok b.instrs := by
    intro n b hb
    obtain ⟨b0, -, hout, -⟩ := hcov.node n b hb
    exact ⟨b0, outputBlock_eq b0.instrs ▸ hout⟩
  have hres : ∀ n b, g.node n = some b → Resolved b.instrs := by
    intro n b hb
    obtain ⟨b0, hb0⟩ := hcode n b hb
    exact instrsCode_resolved hb0
  obtain rfl := Except.ok.inj (h.symm.trans (scheduleBlocks_eq hcov.wf hres))
  obtain ⟨-, -, hmem⟩ := orderBlocks_spec hcov.wf
  -- the blocks of the order, with jumps to each other
  have hnodes : ∀ n ∈ orderBlocks g, ∃ b, g.node n = some b ∧
      (∀ pos, ∃ cs, cs.flatten = b.instrs ∧
        Instructions (fun t => ∃ n ∈ orderBlocks g, t = blockStart g n) pos cs) ∧
      ∀ e ∈ b.edges, ∃ n ∈ orderBlocks g, blockStart g e.2 = blockStart g n := by
    intro n hn
    obtain ⟨b, hb⟩ := hcov.wf.node_of_reachable ((hmem n).mp hn)
    obtain ⟨b0, hb0⟩ := hcode n b hb
    refine ⟨b, hb, fun pos => instrsCode_instructions b0.instrs pos hb0, fun e he => ?_⟩
    exact ⟨e.2, (hmem e.2).mpr (((hmem n).mp hn).edge hb he), rfl⟩
  obtain ⟨cs, hcs, hinstrs, hstarts⟩ := placedCode_instructions (orderBlocks g) hnodes 0
  refine ⟨cs, hcs, hinstrs.mono ?_⟩
  rintro t ⟨n, hn, rfl⟩
  obtain ⟨t, ht, hstart⟩ := hstarts n hn
  rw [Nat.zero_add] at hstart
  rw [blockStart, hstart]
  exact ht

end

/-! ## The image of a program -/

section

variable {parse : String → Except String (List Declaration)} {source : String}
  {decs : List Declaration} {ast : TProgram} {ir : IRProgram} {bp : BytecodeProgram}
  {image : List Word8}

/-- The code of every method of a compiled program is a row of instructions. -/
theorem Compiled.instructions (h : Compiled parse source decs ast ir bp image) {i : Nat}
    {bm : BytecodeMethod} (hbm : bp.methods[i]? = some bm) :
    ∃ cs, cs.flatten = bm.body ∧ Instructions (Boundary cs) 0 cs := by
  obtain ⟨optast, hopt, hir⟩ := h.built
  obtain ⟨-, hirlen, hir⟩ := buildIR_ok hir
  obtain ⟨gVars, -, hlen, hbp⟩ := outputProgram_ok h.output
  have hi : i < ir.methods.length := hlen ▸ (List.getElem?_eq_some_iff.mp hbm).1
  obtain ⟨bm', hbm', houtput⟩ := hbp i _ (List.getElem?_eq_getElem hi)
  obtain rfl := Option.some.inj (hbm.symm.trans hbm')
  obtain ⟨-, -, lVars, g, -, hg, hcode⟩ := outputMethod_ok houtput
  obtain ⟨irm, hirm, hbuilt⟩ := hir i _ (List.getElem?_eq_getElem (hirlen ▸ hi))
  obtain rfl := Option.some.inj ((List.getElem?_eq_getElem hi).symm.trans hirm)
  obtain ⟨st, -, hwf, hcov, -⟩ := buildIRMethod_ok hbuilt
  exact scheduleBlocks_instructions hcov.wf hg hcode

theorem codeOffset_succ {ms : List BytecodeMethod} {i : Nat} {bm : BytecodeMethod}
    (h : ms[i]? = some bm) : codeOffset ms (i + 1) = codeOffset ms i + bm.body.length := by
  obtain ⟨hi, rfl⟩ := List.getElem?_eq_some_iff.mp h
  rw [codeOffset, List.take_succ_eq_append_getElem hi, List.map_append, List.sum_append]
  rfl

theorem calculateMethods_length : ∀ {ms : List BytecodeMethod} {pos : Word16}
    {index programData : List (List Word8)}, calculateMethods pos ms = .ok (index, programData) →
      index.flatten.length = 4 * ms.length ∧ programData.flatten.length = codeOffset ms ms.length
  | [], pos, index, programData, h => by
    cases h
    exact ⟨rfl, rfl⟩
  | m :: ms, pos, index, programData, h => by
    simp only [calculateMethods, bind_eq_ok, Prod.exists] at h
    obtain ⟨index', data', hrest, code, hcode, h⟩ := h
    obtain ⟨rfl, rfl⟩ := Prod.mk.inj (Except.ok.inj h)
    obtain ⟨hindex, hdata⟩ := calculateMethods_length hrest
    rw [List.flatten_cons, List.flatten_cons, List.length_append, List.length_append, hindex, hdata,
      length_of_mapM hcode]
    refine ⟨?_, ?_⟩
    · simp only [List.length_cons, List.length_nil]
      omega
    · simp [codeOffset]

/-- The image ends with the code of the last method. -/
theorem binaryProgram_length (h : binaryProgram bp = .ok image) :
    image.length = codeStart 0 bp.methods bp.methods.length := by
  simp only [binaryProgram, bind_eq_ok, Prod.exists] at h
  obtain ⟨index, programData, hcalc, h⟩ := h
  obtain rfl := Except.ok.inj h
  obtain ⟨hindex, hdata⟩ := calculateMethods_length hcalc
  rw [List.length_append, List.length_append, hindex, hdata, codeStart]
  simp

end

end KeyboardFirmware.Vm
