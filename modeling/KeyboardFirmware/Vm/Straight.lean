/-
  Straight-line code on the machine.

  `effect` is what an instruction of a block does, the instruction pointer aside: a machine that is
  ready and stands at the code of the instruction does it in one step (`instr_runs`).  `OnStack` sees
  what lies on the stack above some place as a list of bytes, so that the effect of an instruction
  is one on lists, with a frame condition for the memory below.
-/
import KeyboardFirmware.Vm.Flow
import KeyboardFirmware.Compiler.Eval

namespace KeyboardFirmware.Vm

open Compiler

variable {s : Storage} {vm vm' vm1 vm2 : Vmstate} {gVars lVars : VarAllocation}

/-! ## Runs through a piece of code -/

/-- The machine goes through the next `n` bytes of code, whatever the keyboard. -/
def RunsThrough (s : Storage) (n : Nat) (vm vm' : Vmstate) : Prop :=
  Passes s (Within vm.ip n) vm vm' ∧ vm'.ip = vm.ip + n

theorem RunsThrough.refl (vm : Vmstate) : RunsThrough s 0 vm vm := ⟨.refl _, rfl⟩

theorem RunsThrough.trans {m n : Nat} (h1 : RunsThrough s m vm vm1) (h2 : RunsThrough s n vm1 vm2) :
    RunsThrough s (m + n) vm vm2 := by
  obtain ⟨hp1, hip1⟩ := h1
  obtain ⟨hp2, hip2⟩ := h2
  refine ⟨(hp1.mono fun a ha => ?_).trans (hp2.mono fun a ha => ?_), by omega⟩
  · exact ⟨ha.1, by have := ha.2; omega⟩
  · exact ⟨by have := ha.1; omega, by have := ha.2; omega⟩

/-- A machine comes to the end of a piece of code in one way. -/
theorem RunsThrough.unique {n : Nat} (h1 : RunsThrough s n vm vm1) (h2 : RunsThrough s n vm vm2) :
    vm1 = vm2 := by
  obtain ⟨hp1, hip1⟩ := h1
  obtain ⟨hp2, hip2⟩ := h2
  have hout : ∀ {a}, a = vm.ip + n → ¬ Within vm.ip n a := by
    rintro a rfl ⟨-, hlt⟩
    omega
  generalize Within vm.ip n = P at hp1 hp2 hout
  generalize vm.ip + n = e at hip1 hip2 hout
  induction hp1 with
  | refl =>
    cases hp2 with
    | refl => rfl
    | step hip => exact absurd hip (hout hip1)
  | step hip hstep _ ih =>
    cases hp2 with
    | refl => exact absurd hip (hout hip2)
    | step _ hstep' hp2 =>
      have hw : Hardware := ⟨0, fun _ => false, fun _ => 0⟩
      obtain rfl := (hstep hw).symm.trans (hstep' hw)
      exact ih hp2 hip1

/-! ## Instructions -/

/-- The address of a slot, which the machine takes as a signed byte. -/
def slotByte (slot : Nat) : VByte := BitVec.ofNat 8 slot

theorem slotByte_toInt {slot : Nat} (h : slot < 128) : (slotByte slot).toInt = slot := by
  have hint : (slotByte slot).toInt = (slot : Int).bmod (2 ^ 8) := BitVec.toInt_ofNat ..
  rw [hint]
  exact Int.bmod_eq_of_le (by omega) (by omega)

theorem localAddr_slotByte {slot : Nat} (h : slot < 128) (vm : Vmstate) :
    vm.localAddr (slotByte slot) = vm.currentFrame + 6 + slot := by
  rw [Vmstate.localAddr, slotByte_toInt h]
  omega

theorem globalAddr_slotByte {slot : Nat} (h : slot < 128) (vm : Vmstate) :
    vm.globalAddr (slotByte slot) = vm.stack + slot := by
  rw [Vmstate.globalAddr, slotByte_toInt h]
  omega

/-- The instructions that neither leave the block nor ask the keyboard. -/
def Straight : IRInstruction → Bool
  | .call _ | .return _ | .exit | .syscall _ | .dummy _ => false
  | _ => true

/-- The effect of `BDUP` and `SDUP`. -/
def Vmstate.dup (vm : Vmstate) : Typ → Vmstate
  | .byte => vm.pushByte vm.topByte
  | _ => vm.pushShort vm.topShort

/-- The effect of `BPOP` and `SPOP`. -/
def Vmstate.pop (vm : Vmstate) : Typ → Vmstate
  | .byte => vm.drop 1
  | _ => (vm.drop 1).drop 1

/-- The effect of `SWAP`. -/
def Vmstate.swap (vm : Vmstate) : Vmstate :=
  (vm.poke vm.stackTop (vm.mem (vm.stackTop - 1))).poke (vm.stackTop - 1) vm.topByte

/-- The effect of the operators. -/
def Vmstate.arith (vm : Vmstate) (op : ArithOp) : Typ → Vmstate
  | .byte => vm.arithByte op
  | _ => vm.arithShort op

/-- What a straight instruction does. -/
def effect (gVars lVars : VarAllocation) (i : IRInstruction) (vm : Vmstate) : Vmstate :=
  match i with
  | .store i => (lVars.lookup i).elim vm fun v => vm.popTo v.2 (vm.localAddr (slotByte v.1))
  | .load i => (lVars.lookup i).elim vm fun v => vm.pushFrom v.2 (vm.localAddr (slotByte v.1))
  -- the opcode of a store to a global is the one of a load
  | .gstore i => (gVars.lookup i).elim vm fun v => vm.pushFrom v.2 (vm.globalAddr (slotByte v.1))
  | .gload i => (gVars.lookup i).elim vm fun v => vm.pushFrom v.2 (vm.globalAddr (slotByte v.1))
  | .bconst v => vm.pushByte v
  | .sconst v => vm.pushShort v
  | .dup t => vm.dup t
  | .pop t => vm.pop t
  | .swap _ => vm.swap
  | .arith t op => vm.arith op t
  | .b2s => (vm.drop 1).pushShort (vmB2S vm.topByte)
  | .s2b => (vm.drop 2).pushByte (vmS2B vm.topShort)
  | .call _ | .return _ | .exit | .syscall _ | .dummy _ => vm

theorem varLookup_ok {vs : VarAllocation} {i : VariableID} {r : Nat × Typ} :
    varLookup vs i = .ok r ↔ vs.lookup i = some r := by
  unfold varLookup
  cases vs.lookup i <;> simp [maybeToError]

theorem toNat_lt_four {n : Nat} {v : BitVec n} (h : BitVec.sle 0 v ∧ BitVec.slt v 4) (hn : 4 ≤ n) :
    v.toNat < 4 := by
  have hpow : 2 ^ 4 ≤ 2 ^ n := Nat.pow_le_pow_right (by omega) hn
  have hzero : (0 : BitVec n).toInt = 0 := BitVec.toInt_zero
  have hfour : (4 : BitVec n).toInt = 4 := by
    have hint : (4 : BitVec n).toInt = (4 : Int).bmod (2 ^ n) := BitVec.toInt_ofNat ..
    rw [hint]
    exact Int.bmod_eq_of_le (by omega) (by omega)
  have h0 : 0 ≤ v.toInt := hzero ▸ BitVec.sle_iff_toInt_le.mp h.1
  have h4 : v.toInt < 4 := hfour ▸ BitVec.slt_iff_toInt_lt.mp h.2
  have hnat : v.toInt = v.toNat := by
    rw [BitVec.toInt_eq_toNat_cond] at h0 ⊢
    split
    · rfl
    · rename_i hlarge
      rw [if_neg hlarge] at h0
      have := v.isLt
      omega
  omega

/-- One opcode, with its operands in the code. -/
theorem runsThrough_step (hr : vm.Ready) {c : Bytecode} {cs : List Bytecode}
    (h : CodeAt s vm.ip (c :: cs)) {op : Opcode} (hop : opcodeOf c = some op)
    (heff : ∀ hw, (vm.advance 1).exec hw s op = vm'.advance (cs.length + 1)) (hip : vm'.ip = vm.ip) :
    RunsThrough s (c :: cs).length vm (vm'.advance (c :: cs).length) := by
  refine ⟨.one ⟨Nat.le_refl _, ?_⟩ fun hw => ?_, ?_⟩
  · rw [List.length_cons]
    omega
  · rw [step_exec hr h hop, heff hw]
    rfl
  · show vm'.ip + _ = _
    rw [hip]

/-- An opcode with one operand byte. -/
theorem runsThrough_operand (hr : vm.Ready) {c : Bytecode} {b : Word8}
    (h : CodeAt s vm.ip [c, .immediateByte b]) {op : Opcode} (hop : opcodeOf c = some op)
    (f : Word8 → Vmstate → Vmstate) (hexec : ∀ hw vm, vm.exec hw s op = Vmstate.nextInstr vm s f)
    (heff : f b (vm.advance 2) = vm'.advance 2) (hip : vm'.ip = vm.ip) :
    RunsThrough s 2 vm (vm'.advance 2) := by
  refine runsThrough_step hr h hop (fun hw => ?_) hip
  have harg : CodeAt s (vm.advance 1).ip [.immediateByte b] := h.2
  rw [hexec, nextInstr_codeAt harg]
  exact heff

section Advance

variable (n : Nat)

@[simp] theorem advance_drop (k : Nat) : (vm.advance n).drop k = (vm.drop k).advance n := rfl

@[simp] theorem advance_pushByte (v : VByte) :
    (vm.advance n).pushByte v = (vm.pushByte v).advance n := rfl

@[simp] theorem advance_pushShort (v : VShort) :
    (vm.advance n).pushShort v = (vm.pushShort v).advance n := rfl

@[simp] theorem advance_popTo (t : Typ) (a : Nat) :
    (vm.advance n).popTo t a = (vm.popTo t a).advance n := by cases t <;> rfl

@[simp] theorem advance_pushFrom (t : Typ) (a : Nat) :
    (vm.advance n).pushFrom t a = (vm.pushFrom t a).advance n := by cases t <;> rfl

@[simp] theorem advance_topByte : (vm.advance n).topByte = vm.topByte := rfl

@[simp] theorem advance_topShort : (vm.advance n).topShort = vm.topShort := rfl

@[simp] theorem advance_localAddr (addr : VByte) :
    (vm.advance n).localAddr addr = vm.localAddr addr := rfl

@[simp] theorem advance_globalAddr (addr : VByte) :
    (vm.advance n).globalAddr addr = vm.globalAddr addr := rfl

@[simp] theorem advance_arithByte (op : ArithOp) :
    (vm.advance n).arithByte op = (vm.arithByte op).advance n := by cases op <;> rfl

@[simp] theorem advance_arithShort (op : ArithOp) :
    (vm.advance n).arithShort op = (vm.arithShort op).advance n := by cases op <;> rfl

end Advance

theorem popTo_ip (t : Typ) (a : Nat) : (vm.popTo t a).ip = vm.ip := by cases t <;> rfl

theorem pushFrom_ip (t : Typ) (a : Nat) : (vm.pushFrom t a).ip = vm.ip := by cases t <;> rfl

theorem arithByte_ip (op : ArithOp) : (vm.arithByte op).ip = vm.ip := by cases op <;> rfl

theorem arithShort_ip (op : ArithOp) : (vm.arithShort op).ip = vm.ip := by cases op <;> rfl

theorem store_runs {t : Typ} {slot : Nat} {code : List Bytecode}
    (hcode : (if slot < 4 then [.storeN t slot]
      else [.store t, .immediateByte (slotByte slot)]) = code) (hr : vm.Ready) (h : CodeAt s vm.ip code) :
    RunsThrough s code.length vm ((vm.popTo t (vm.localAddr (slotByte slot))).advance code.length) := by
  subst hcode
  by_cases hfour : slot < 4
  · rw [if_pos hfour] at h ⊢
    refine runsThrough_step hr h (dif_pos hfour) (fun hw => ?_) (popTo_ip _ _)
    rw [localAddr_slotByte (by omega)]
    exact advance_popTo 1 t _
  · rw [if_neg hfour] at h ⊢
    exact runsThrough_operand hr h rfl (fun addr vm => vm.popTo t (vm.localAddr addr))
      (fun _ _ => rfl) (advance_popTo 2 t _) (popTo_ip _ _)

theorem load_runs {t : Typ} {slot : Nat} {code : List Bytecode}
    (hcode : (if slot < 4 then [.loadN t slot]
      else [.load t, .immediateByte (slotByte slot)]) = code) (hr : vm.Ready) (h : CodeAt s vm.ip code) :
    RunsThrough s code.length vm
      ((vm.pushFrom t (vm.localAddr (slotByte slot))).advance code.length) := by
  subst hcode
  by_cases hfour : slot < 4
  · rw [if_pos hfour] at h ⊢
    refine runsThrough_step hr h (dif_pos hfour) (fun hw => ?_) (pushFrom_ip _ _)
    rw [localAddr_slotByte (by omega)]
    exact advance_pushFrom 1 t _
  · rw [if_neg hfour] at h ⊢
    exact runsThrough_operand hr h rfl (fun addr vm => vm.pushFrom t (vm.localAddr addr))
      (fun _ _ => rfl) (advance_pushFrom 2 t _) (pushFrom_ip _ _)

theorem gload_runs {t : Typ} {slot : Nat} (hr : vm.Ready)
    (h : CodeAt s vm.ip [.gload t, .immediateByte (slotByte slot)]) :
    RunsThrough s 2 vm ((vm.pushFrom t (vm.globalAddr (slotByte slot))).advance 2) :=
  runsThrough_operand hr h rfl (fun addr vm => vm.pushFrom t (vm.globalAddr addr)) (fun _ _ => rfl)
    (advance_pushFrom 2 t _) (pushFrom_ip _ _)

theorem bconst_runs {v : VByte} {code : List Bytecode}
    (hcode : (if BitVec.sle 0 v ∧ BitVec.slt v 4 then [.bconstN v] else [.bconst, .immediateByte v]) =
      code) (hr : vm.Ready) (h : CodeAt s vm.ip code) :
    RunsThrough s code.length vm ((vm.pushByte v).advance code.length) := by
  subst hcode
  by_cases hfour : BitVec.sle 0 v ∧ BitVec.slt v 4
  · rw [if_pos hfour] at h ⊢
    refine runsThrough_step hr h (dif_pos (toNat_lt_four hfour (by omega))) (fun hw => ?_) rfl
    show (vm.advance 1).pushByte (BitVec.ofNat 8 v.toNat) = (vm.pushByte v).advance 1
    rw [BitVec.ofNat_toNat, BitVec.setWidth_eq]
    rfl
  · rw [if_neg hfour] at h ⊢
    exact runsThrough_operand hr h rfl (fun c vm => vm.pushByte c) (fun _ _ => rfl) rfl rfl

theorem sconst_runs {v : VShort} {code : List Bytecode}
    (hcode : (if BitVec.sle 0 v ∧ BitVec.slt v 4 then [.sconstN v]
      else [.sconst, .immediateByte (Compiler.lowByte v), .immediateByte (Compiler.highByte v)]) = code)
    (hr : vm.Ready) (h : CodeAt s vm.ip code) :
    RunsThrough s code.length vm ((vm.pushShort v).advance code.length) := by
  subst hcode
  by_cases hfour : BitVec.sle 0 v ∧ BitVec.slt v 4
  · rw [if_pos hfour] at h ⊢
    refine runsThrough_step hr h (dif_pos (toNat_lt_four hfour (by omega))) (fun hw => ?_) rfl
    show (vm.advance 1).pushShort (BitVec.ofNat 16 v.toNat) = (vm.pushShort v).advance 1
    rw [BitVec.ofNat_toNat, BitVec.setWidth_eq]
    rfl
  · rw [if_neg hfour] at h ⊢
    refine runsThrough_step hr h rfl (fun hw => ?_) rfl
    have harg : CodeAt s (vm.advance 1).ip
        [.immediateByte (Compiler.lowByte v), .immediateByte (Compiler.highByte v)] := h.2
    show (vm.advance 1).nextShort s (fun c vm => vm.pushShort c) = (vm.pushShort v).advance 3
    rw [nextShort_codeAt harg, compiler_lowByte, compiler_highByte, shortOf_bytes]
    rfl

/-- **An instruction** of a block runs. -/
theorem instr_runs {i : IRInstruction} (hi : Straight i = true) {code : List Bytecode}
    (hcode : instrCode gVars lVars i = .ok code) (hr : vm.Ready) (h : CodeAt s vm.ip code) :
    RunsThrough s code.length vm ((effect gVars lVars i vm).advance code.length) := by
  cases i with
  | call | «return» | exit | syscall | dummy => exact (nomatch hi)
  | store i =>
    simp only [instrCode, bind_eq_ok] at hcode
    obtain ⟨⟨slot, t⟩, hslot, hcode⟩ := hcode
    rw [varLookup_ok] at hslot
    simp only [effect, hslot, Option.elim_some]
    exact store_runs (Except.ok.inj hcode) hr h
  | load i =>
    simp only [instrCode, bind_eq_ok] at hcode
    obtain ⟨⟨slot, t⟩, hslot, hcode⟩ := hcode
    rw [varLookup_ok] at hslot
    simp only [effect, hslot, Option.elim_some]
    exact load_runs (Except.ok.inj hcode) hr h
  | gstore i | gload i =>
    simp only [instrCode, bind_eq_ok] at hcode
    obtain ⟨⟨slot, t⟩, hslot, hcode⟩ := hcode
    rw [varLookup_ok] at hslot
    obtain rfl := Except.ok.inj hcode
    simp only [effect, hslot, Option.elim_some]
    exact gload_runs hr h
  | bconst v => exact bconst_runs (Except.ok.inj hcode) hr h
  | sconst v => exact sconst_runs (Except.ok.inj hcode) hr h
  | dup t | pop t | swap t =>
    obtain rfl := Except.ok.inj hcode
    exact runsThrough_step hr h rfl (fun hw => by cases t <;> rfl) (by cases t <;> rfl)
  | arith t op =>
    obtain rfl := Except.ok.inj hcode
    cases t with
    | byte => exact runsThrough_step hr h rfl (fun hw => advance_arithByte 1 op) (arithByte_ip op)
    | short | void =>
      exact runsThrough_step hr h rfl (fun hw => advance_arithShort 1 op) (arithShort_ip op)
  | s2b | b2s =>
    obtain rfl := Except.ok.inj hcode
    exact runsThrough_step hr h rfl (fun hw => rfl) rfl

/-- An instruction behind a piece of code that has run. -/
theorem RunsThrough.instr {i : IRInstruction} (hi : Straight i = true) {c1 c2 : List Bytecode}
    (hrun : RunsThrough s c1.length vm vm1) (hcode : instrCode gVars lVars i = .ok c2)
    (hr : vm1.Ready) (h : CodeAt s vm.ip (c1 ++ c2)) :
    RunsThrough s (c1 ++ c2).length vm ((effect gVars lVars i vm1).advance c2.length) := by
  rw [List.length_append]
  have hat : CodeAt s vm1.ip c2 := hrun.2 ▸ (codeAt_append.mp h).2
  exact hrun.trans (instr_runs hi hcode hr hat)

theorem instrsCode_snoc {is : List IRInstruction} {i : IRInstruction} {c : List Bytecode} :
    instrsCode gVars lVars (is ++ [i]) = .ok c ↔ ∃ c1 c2,
      instrsCode gVars lVars is = .ok c1 ∧ instrCode gVars lVars i = .ok c2 ∧ c = c1 ++ c2 := by
  rw [instrsCode_append]
  constructor
  · rintro ⟨c1, c2, h1, h2, rfl⟩
    obtain ⟨c3, c4, h3, h4, rfl⟩ := instrsCode_cons.mp h2
    obtain rfl := Except.ok.inj h4
    exact ⟨c1, c3, h1, h3, by rw [List.append_nil]⟩
  · rintro ⟨c1, c2, h1, h2, rfl⟩
    exact ⟨c1, c2, h1, instrsCode_cons.mpr ⟨c2, [], h2, rfl, by rw [List.append_nil]⟩, rfl⟩

/-! ## The stack above a place -/

/-- What straight code leaves alone. -/
def Vmstate.control (vm : Vmstate) : Vmstate :=
  { vm with ip := 0, stackTop := 0, mem := fun _ => 0, writes := [] }

/-- The bytes `bs` lie on the stack above `base`; below it and elsewhere all is as in `vm₀`. -/
structure OnStack (vm₀ : Vmstate) (base : Nat) (bs : List VByte) (vm : Vmstate) : Prop where
  top : vm.stackTop = base + bs.length
  bytes : ∀ i v, bs[i]? = some v → vm.mem (base + 1 + i) = v
  below : ∀ a ≤ base, vm.mem a = vm₀.mem a
  control : vm.control = vm₀.control

namespace OnStack

variable {vm₀ : Vmstate} {base : Nat} {bs cs : List VByte}

theorem start (vm : Vmstate) : OnStack vm vm.stackTop [] vm where
  top := rfl
  bytes _ _ h := nomatch h
  below _ _ := rfl
  control := rfl

theorem advance (h : OnStack vm₀ base bs vm) (n : Nat) : OnStack vm₀ base bs (vm.advance n) :=
  ⟨h.top, h.bytes, h.below, h.control⟩

theorem frame_eq (h : OnStack vm₀ base bs vm) : vm.currentFrame = vm₀.currentFrame := by
  have hframe : vm.control.currentFrame = vm₀.control.currentFrame := by rw [h.control]
  exact hframe

theorem stack_eq (h : OnStack vm₀ base bs vm) : vm.stack = vm₀.stack := by
  have hstack : vm.control.stack = vm₀.control.stack := by rw [h.control]
  exact hstack

/-- The machine stays ready as long as there is room. -/
theorem ready (h : OnStack vm₀ base bs vm) (hr : vm₀.Ready)
    (hroom : base + bs.length ≤ vm₀.stack + (STACK_SIZE - 2)) : vm.Ready := by
  have hstate : vm.control.state = vm₀.control.state := by rw [h.control]
  exact ⟨hstate.trans hr.running, by rwa [h.top, h.stack_eq]⟩

theorem pushByte (h : OnStack vm₀ base bs vm) (v : VByte) :
    OnStack vm₀ base (bs ++ [v]) (vm.pushByte v) where
  top := by
    show vm.stackTop + 1 = _
    rw [h.top, List.length_append]
    rfl
  bytes i w hi := by
    show (if base + 1 + i = vm.stackTop + 1 then v else vm.mem (base + 1 + i)) = w
    rw [h.top]
    rcases Nat.lt_or_ge i bs.length with hlt | hge
    · rw [List.getElem?_append_left hlt] at hi
      rw [if_neg (by omega)]
      exact h.bytes i w hi
    · rw [List.getElem?_append_right hge, List.getElem?_singleton] at hi
      split at hi
      · rw [if_pos (by omega)]
        exact Option.some.inj hi
      · exact (nomatch hi)
  below a ha := by
    show (if a = vm.stackTop + 1 then v else vm.mem a) = _
    rw [h.top, if_neg (by omega)]
    exact h.below a ha
  control := h.control

theorem pushShort_eq (vm : Vmstate) (v : VShort) :
    OnStack vm₀ base bs (vm.pushShort v) ↔
      OnStack vm₀ base bs ((vm.pushByte (lowByte v)).pushByte (highByte v)) :=
  ⟨fun h => ⟨h.top, h.bytes, h.below, h.control⟩, fun h => ⟨h.top, h.bytes, h.below, h.control⟩⟩

theorem pushShort (h : OnStack vm₀ base bs vm) (v : VShort) :
    OnStack vm₀ base (bs ++ [lowByte v, highByte v]) (vm.pushShort v) := by
  rw [pushShort_eq]
  have hpush := (h.pushByte (lowByte v)).pushByte (highByte v)
  rwa [List.append_assoc] at hpush

theorem drop (h : OnStack vm₀ base (bs ++ cs) vm) {k : Nat} (hk : cs.length = k) :
    OnStack vm₀ base bs (vm.drop k) where
  top := by
    show vm.stackTop - k = _
    rw [h.top, List.length_append]
    omega
  bytes i v hi := by
    have hlt : i < bs.length := (List.getElem?_eq_some_iff.mp hi).1
    exact h.bytes i v (by rwa [List.getElem?_append_left hlt])
  below := h.below
  control := h.control

theorem topByte {v : VByte} (h : OnStack vm₀ base (bs ++ [v]) vm) : vm.topByte = v := by
  show vm.mem vm.stackTop = v
  have hv : vm.mem (base + 1 + bs.length) = v := h.bytes bs.length v (by simp)
  have htop : vm.stackTop = base + 1 + bs.length := by
    rw [h.top, List.length_append, List.length_singleton]
    omega
  rw [htop, hv]

theorem topShort {lo hi : VByte} (h : OnStack vm₀ base (bs ++ [lo, hi]) vm) :
    vm.topShort = shortOf lo hi := by
  show shortOf (vm.mem (vm.stackTop - 1)) (vm.mem (vm.stackTop - 1 + 1)) = _
  have hlo : vm.mem (base + 1 + bs.length) = lo := h.bytes bs.length lo (by simp)
  have hhi : vm.mem (base + 1 + (bs.length + 1)) = hi := h.bytes (bs.length + 1) hi (by simp)
  have htop : vm.stackTop = base + bs.length + 2 := by
    rw [h.top, List.length_append]
    rfl
  have h1 : vm.stackTop - 1 = base + 1 + bs.length := by omega
  have h2 : vm.stackTop - 1 + 1 = base + 1 + (bs.length + 1) := by omega
  rw [h2, h1, hlo, hhi]

/-- A short on top is its two bytes. -/
theorem topShort_bytes {v : VShort} (h : OnStack vm₀ base (bs ++ [lowByte v, highByte v]) vm) :
    vm.topShort = v := by
  rw [h.topShort, shortOf_bytes]

/-- The stack has the bytes it has. -/
theorem unique (h : OnStack vm₀ base bs vm) (h' : OnStack vm₀ base cs vm) : bs = cs := by
  have hlen : bs.length = cs.length := Nat.add_left_cancel (h.top.symm.trans h'.top)
  refine List.ext_getElem hlen fun i hi hi' => ?_
  have hb := h.bytes i _ (List.getElem?_eq_getElem hi)
  have hc := h'.bytes i _ (List.getElem?_eq_getElem hi')
  exact hb.symm.trans hc

end OnStack

/-- The bytes of a value on the stack. -/
def valBytes : Val → List VByte
  | .byte v => [v]
  | .short v => [lowByte v, highByte v]
  | .void => []

end KeyboardFirmware.Vm
