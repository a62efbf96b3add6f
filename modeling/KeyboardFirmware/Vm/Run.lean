/-
  Runs of one machine over code that lies in its storage.

  `CodeAt s a code` says that the storage has the encoding of `code` from `a` on.  The encoder and
  the machine agree on the opcodes (`decode_bytecodeByte`), so that a machine that is ready and
  stands at an instruction executes it (`step_exec`).  `Passes` is a run that no reading of the
  keyboard changes.
-/
import KeyboardFirmware.Vm.Interpreter
import KeyboardFirmware.Compiler.Schedule
import Mathlib.Tactic.IntervalCases

namespace KeyboardFirmware.Vm

open Compiler

/-! ## Opcodes -/

/-- The instruction that a bytecode is for the machine; an operand is none. -/
def opcodeOf : Bytecode → Option Opcode
  | .immediateByte _ => none
  | .relocation _ => none
  | .store t => some (.store t)
  | .storeN t i => if h : i < 4 then some (.storeN t ⟨i, h⟩) else none
  | .load t => some (.load t)
  | .loadN t i => if h : i < 4 then some (.loadN t ⟨i, h⟩) else none
  | .gstore t => some (.gstore t)
  | .gload t => some (.gload t)
  | .bconst => some (.const .byte)
  | .bconstN v => if h : v.toNat < 4 then some (.constN .byte ⟨v.toNat, h⟩) else none
  | .sconst => some (.const .short)
  | .sconstN v => if h : v.toNat < 4 then some (.constN .short ⟨v.toNat, h⟩) else none
  | .dup t => some (.dup t)
  | .pop t => some (.pop t)
  | .swap _ => some .swap
  | .arith op t => some (.arith op t)
  | .b2s => some .b2s
  | .s2b => some .s2b
  | .cond c => some (.cond c)
  | .goto => some .goto
  | .nop => some .nop
  | .call => some .call
  | .ret t => some (.ret t)
  | .vmexit => some .vmexit
  | .syscall op => some (.syscall op)

/-- The machine decodes what the encoder emits. -/
theorem decode_bytecodeByte {c : Bytecode} {b : Word8} {op : Opcode} (hb : bytecodeByte c = .ok b)
    (hop : opcodeOf c = some op) : decode b = some op := by
  have hfour : ∀ {n : Nat} {v : BitVec n}, v.toNat < 4 →
      v = BitVec.ofNat n v.toNat := fun _ => by simp
  cases c with
  | immediateByte | relocation => cases hop
  | store t | load t | gstore t | gload t | dup t | pop t | ret t =>
    cases hop
    cases t <;> cases hb <;> rfl
  | storeN t i | loadN t i =>
    simp only [opcodeOf] at hop
    split at hop
    case isFalse => cases hop
    case isTrue hi =>
      cases hop
      cases t
      case void => cases hb
      all_goals
        cases hb
        interval_cases i <;> rfl
  | bconstN v | sconstN v =>
    simp only [opcodeOf] at hop
    split at hop
    case isFalse => cases hop
    case isTrue hi =>
      cases hop
      cases hb
      obtain ⟨i, hv⟩ : ∃ i, v.toNat = i := ⟨_, rfl⟩
      have hvi := hfour hi
      simp only [hv] at hi hvi ⊢
      subst hvi
      interval_cases i <;> rfl
  | swap t =>
    cases t <;> cases hb
    cases hop
    rfl
  | arith aop t => cases t <;> cases hb <;> cases hop <;> cases aop <;> rfl
  | cond c => cases hb; cases hop; cases c <;> rfl
  | syscall sop => cases hb; cases hop; cases sop <;> rfl
  | _ => cases hb; cases hop; rfl

/-! ## Code in storage -/

/-- The storage has the encoding of some code. -/
def CodeAt (s : Storage) : Nat → List Bytecode → Prop
  | _, [] => True
  | a, c :: cs => (∃ b, bytecodeByte c = .ok b ∧ s a = some b) ∧ CodeAt s (a + 1) cs

/-- The storage has some bytes. -/
def Storage.Holds (s : Storage) (a : Nat) (bytes : List Word8) : Prop :=
  ∀ i b, bytes[i]? = some b → s (a + i) = some b

variable {s : Storage}

theorem codeAt_append {c1 c2 : List Bytecode} :
    ∀ {a}, CodeAt s a (c1 ++ c2) ↔ CodeAt s a c1 ∧ CodeAt s (a + c1.length) c2 := by
  induction c1 with
  | nil => intro a; simp [CodeAt]
  | cons c c1 ih =>
    intro a
    have hlen : a + (c :: c1).length = a + 1 + c1.length := by simp; omega
    rw [hlen, List.cons_append]
    show _ ∧ _ ↔ (_ ∧ _) ∧ _
    rw [ih, and_assoc]

/-- Code lies where its bytes do. -/
theorem codeAt_of_holds {code : List Bytecode} :
    ∀ {a bytes}, code.mapM bytecodeByte = .ok bytes → s.Holds a bytes → CodeAt s a code := by
  induction code with
  | nil => intro a bytes _ _; trivial
  | cons c code ih =>
    intro a bytes hcode hs
    simp only [List.mapM_cons, bind_eq_ok] at hcode
    obtain ⟨b, hb, bs, hbs, h⟩ := hcode
    cases h
    refine ⟨⟨b, hb, hs 0 b rfl⟩, ih hbs fun i b' hb' => ?_⟩
    have := hs (i + 1) b' (by simpa using hb')
    rwa [Nat.add_assoc, Nat.add_comm 1 i]

theorem length_of_mapM {code : List Bytecode} :
    ∀ {bytes}, code.mapM bytecodeByte = .ok bytes → bytes.length = code.length := by
  induction code with
  | nil => intro bytes h; cases h; rfl
  | cons c code ih =>
    intro bytes h
    simp only [List.mapM_cons, bind_eq_ok] at h
    obtain ⟨b, -, bs, hbs, h⟩ := h
    cases h
    simp [ih hbs]

/-! ## Steps -/

/-- The machine will execute the next instruction: it runs, and its stack passes the guard. -/
structure Vmstate.Ready (vm : Vmstate) : Prop where
  running : vm.state = .running
  room : vm.stackTop ≤ vm.stack + (STACK_SIZE - 2)

variable {vm vm1 vm2 : Vmstate} {hw : Hardware}

theorem step_fetch (hr : vm.Ready) : vm.step hw s = vm.fetch hw s := by
  have hroom : ¬ vm.stack + (STACK_SIZE - 2) < vm.stackTop := Nat.not_lt.mpr hr.room
  simp [Vmstate.step, hr.running, Status.active, hroom]

/-- The instruction pointer past the opcode. -/
def Vmstate.advance (vm : Vmstate) (n : Nat) : Vmstate := { vm with ip := vm.ip + n }

/-- A ready machine executes the instruction it stands at. -/
theorem step_exec (hr : vm.Ready) {c : Bytecode} {cs : List Bytecode} (h : CodeAt s vm.ip (c :: cs))
    {op : Opcode} (hop : opcodeOf c = some op) : vm.step hw s = (vm.advance 1).exec hw s op := by
  obtain ⟨⟨b, hb, hs⟩, -⟩ := h
  rw [step_fetch hr]
  simp only [Vmstate.fetch, Vmstate.nextInstr, hs, decode_bytecodeByte hb hop]
  rfl

theorem nextInstr_codeAt {b : Word8} {cs : List Bytecode} (h : CodeAt s vm.ip (.immediateByte b :: cs))
    (k : Word8 → Vmstate → Vmstate) : vm.nextInstr s k = k b (vm.advance 1) := by
  obtain ⟨⟨b', hb, hs⟩, -⟩ := h
  cases hb
  simp only [Vmstate.nextInstr, hs]
  rfl

theorem nextShort_codeAt {lo hi : Word8} {cs : List Bytecode}
    (h : CodeAt s vm.ip (.immediateByte lo :: .immediateByte hi :: cs))
    (k : VShort → Vmstate → Vmstate) : vm.nextShort s k = k (shortOf lo hi) (vm.advance 2) := by
  obtain ⟨⟨b1, hb1, hs1⟩, ⟨b2, hb2, hs2⟩, -⟩ := h
  cases hb1
  cases hb2
  simp only [Vmstate.nextShort, hs1, hs2]
  rfl

theorem compiler_lowByte (v : VShort) : Compiler.lowByte v = lowByte v := by
  apply BitVec.eq_of_toNat_eq
  simp [Compiler.lowByte, lowByte]

theorem compiler_highByte (v : VShort) : Compiler.highByte v = highByte v := by
  apply BitVec.eq_of_toNat_eq
  simp [Compiler.highByte, highByte, Nat.shiftRight_eq_div_pow]

/-- A jump of less than 32768 bytes arrives: its offset counts from the jump instruction, at `pos`. -/
theorem goto_jumpTo {start : Nat → Nat} {pos n base : Nat} {cs : List Bytecode}
    (h : CodeAt s (base + pos + 1) (jumpTo start pos n ++ cs)) (hip : vm.ip = base + pos + 1)
    (hpos : pos < 32768) (hstart : start n < 32768) :
    vm.goto s = { vm with ip := base + start n } := by
  have hshort : shortOf (Compiler.lowByte (BitVec.ofInt 16 (start n - pos)))
      (Compiler.highByte (BitVec.ofInt 16 (start n - pos))) = BitVec.ofInt 16 (start n - pos) := by
    rw [compiler_lowByte, compiler_highByte, shortOf_bytes]
  have hoffset : (BitVec.ofInt 16 ((start n : Int) - pos)).toInt = start n - pos := by
    rw [BitVec.toInt_ofInt]
    exact Int.bmod_eq_of_le (by omega) (by omega)
  rw [← hip] at h
  rw [Vmstate.goto, nextShort_codeAt h, hshort]
  show Vmstate.mk _ _ _ _ _ _ _ _ _ _ _ _ _ _ = _
  congr 1
  show ((vm.ip + 2 : Nat) + (BitVec.ofInt 16 ((start n : Int) - pos)).toInt - 3).toNat = base + start n
  rw [hoffset, hip]
  omega

/-! ## Runs -/

/-- Whatever the keyboard, the machine comes from one state to another, and on its way stands only
    where `P` says. -/
inductive Passes (s : Storage) (P : Nat → Prop) : Vmstate → Vmstate → Prop
  | refl (vm : Vmstate) : Passes s P vm vm
  | step {vm vm1 vm2 : Vmstate} : P vm.ip → (∀ hw, vm.step hw s = vm1) → Passes s P vm1 vm2 →
      Passes s P vm vm2

variable {P : Nat → Prop}

theorem Passes.trans (h1 : Passes s P vm vm1) (h2 : Passes s P vm1 vm2) : Passes s P vm vm2 := by
  induction h1 with
  | refl => exact h2
  | step hip hstep _ ih => exact .step hip hstep (ih h2)

theorem Passes.one (hip : P vm.ip) (h : ∀ hw, vm.step hw s = vm1) : Passes s P vm vm1 :=
  .step hip h (.refl _)

theorem Passes.mono {Q : Nat → Prop} (h : Passes s P vm vm1) (hPQ : ∀ a, P a → Q a) :
    Passes s Q vm vm1 := by
  induction h with
  | refl => exact .refl _
  | step hip hstep _ ih => exact .step (hPQ _ hip) hstep ih

end KeyboardFirmware.Vm
