/-
  The dump of a whole program, beside the machine that runs it.

  The disassembler trusts the counts and the offsets of the array, and reads an operand wherever the code
  ends.  It stays within the array exactly when the method table and every instruction that it begins
  lie there (`Inside`), and then each line is an instruction as the machine reads it.  The images of the
  compiler are such arrays, as long as their counts and offsets fit the fields of the header.
-/
import KeyboardFirmware.Client.Disassembler

namespace KeyboardFirmware.Disassembler

open Compiler Vm

variable {bytes : List Word8} {nmethods mi start stop a b : Nat} {md : MethodDump}

/-! ## Methods -/

/-- The offset in the entry of a method. -/
def entryOffset (bytes : List Word8) (mi : Nat) : Nat :=
  ((shortAt bytes (2 + 4 * mi + 2)).map (·.toNat)).getD 0

/-- Where the code of a method starts. -/
def methodStart (bytes : List Word8) (nmethods mi : Nat) : Nat :=
  2 + 4 * nmethods + entryOffset bytes mi

/-- Where it ends. -/
def methodStop (bytes : List Word8) (nmethods mi : Nat) : Nat :=
  if mi + 1 = nmethods then bytes.length else methodStart bytes nmethods (mi + 1)

/-- The dump of a method, by its parts. -/
structure MethodAt (bytes : List Word8) (nmethods mi : Nat) (md : MethodDump) : Prop where
  nargs : bytes[2 + 4 * mi]? = some md.nargs
  nlocals : bytes[2 + 4 * mi + 1]? = some md.nlocals
  codeOffset : shortAt bytes (2 + 4 * mi + 2) = some md.codeOffset
  next : mi + 1 ≠ nmethods → ∃ v, shortAt bytes (2 + 4 * (mi + 1) + 2) = some v
  lines : (codeReader bytes (methodStart bytes nmethods mi)).Row (methodStop bytes nmethods mi)
    (methodStart bytes nmethods mi) md.lines

theorem entryOffset_eq {v : Word16} (h : shortAt bytes (2 + 4 * mi + 2) = some v) :
    entryOffset bytes mi = v.toNat := by
  rw [entryOffset, h]
  rfl

/-- The end of a method is there when the next entry is. -/
theorem codeEnd_eq_some {n : Nat} : codeEnd bytes nmethods mi = some n ↔
    (mi + 1 ≠ nmethods → ∃ v, shortAt bytes (2 + 4 * (mi + 1) + 2) = some v) ∧
      n = methodStop bytes nmethods mi := by
  unfold codeEnd methodStop
  by_cases hlast : mi + 1 = nmethods
  · rw [if_pos hlast, if_pos hlast]
    simp [hlast, eq_comm]
  · rw [if_neg hlast, if_neg hlast, Option.map_eq_some_iff]
    constructor
    · rintro ⟨v, hv, rfl⟩
      exact ⟨fun _ => ⟨v, hv⟩, by rw [methodStart, entryOffset_eq hv]⟩
    · rintro ⟨hnext, rfl⟩
      obtain ⟨v, hv⟩ := hnext hlast
      exact ⟨v, hv, by rw [methodStart, entryOffset_eq hv]⟩

theorem disassembleMethod_eq_some :
    disassembleMethod bytes nmethods mi = some md ↔ MethodAt bytes nmethods mi md := by
  unfold disassembleMethod
  constructor
  · intro h
    obtain ⟨nargs, hnargs, h⟩ := Option.bind_eq_some_iff.mp h
    obtain ⟨nlocals, hnlocals, h⟩ := Option.bind_eq_some_iff.mp h
    obtain ⟨codeOffset, hoffset, h⟩ := Option.bind_eq_some_iff.mp h
    obtain ⟨codeEnd, hend, h⟩ := Option.bind_eq_some_iff.mp h
    obtain ⟨lines, hlines, h⟩ := Option.bind_eq_some_iff.mp h
    obtain rfl := Option.some.inj h
    obtain ⟨hnext, rfl⟩ := codeEnd_eq_some.mp hend
    refine ⟨hnargs, hnlocals, hoffset, hnext, ?_⟩
    rw [methodStart, entryOffset_eq hoffset]
    exact Lib.Reader.sweep_eq_some_iff.mp hlines
  · intro h
    have hend := codeEnd_eq_some.mpr ⟨h.next, rfl⟩
    have hstart : 2 + 4 * nmethods + md.codeOffset.toNat = methodStart bytes nmethods mi := by
      rw [methodStart, entryOffset_eq h.codeOffset]
    simp only [h.nargs, h.nlocals, h.codeOffset, Option.bind_eq_bind, Option.bind_some, hend, hstart,
      Lib.Reader.sweep_eq_some_iff.mpr h.lines]

/-- **What is printed**: the header, and the dump of every method. -/
theorem dump_eq_some {programData : QByteArray} {d : Dump} : dump programData = some d ↔
    programData.data[0]? = some d.nglobals ∧ programData.data[1]? = some d.nmethods ∧
      d.methods.length = d.nmethods.toNat ∧ ∀ (mi : Nat) md, d.methods[mi]? = some md →
        MethodAt programData.data d.nmethods.toNat mi md := by
  have hmethods : ∀ {n : Nat} {ms : List MethodDump},
      (List.range n).mapM (disassembleMethod programData.data n) = some ms ↔ ms.length = n ∧
        ∀ (mi : Nat) md, ms[mi]? = some md → MethodAt programData.data n mi md := by
    intro n ms
    rw [mapM_eq_some_iff]
    constructor
    · intro h
      have hlen : ms.length = n := by simpa using (congrArg List.length h).symm
      refine ⟨hlen, fun mi md hmd => disassembleMethod_eq_some.mp ?_⟩
      have hmi : mi < n := hlen ▸ (List.getElem?_eq_some_iff.mp hmd).1
      have hget := congrArg (·[mi]?) h
      simpa [hmd, hmi] using hget
    · rintro ⟨rfl, h⟩
      refine List.ext_getElem (by simp) fun mi hmi _ => ?_
      rw [List.length_map, List.length_range] at hmi
      rw [List.getElem_map, List.getElem_map, List.getElem_range]
      exact disassembleMethod_eq_some.mpr (h mi _ (List.getElem?_eq_getElem hmi))
  unfold dump
  constructor
  · intro h
    obtain ⟨nglobals, hnglobals, h⟩ := Option.bind_eq_some_iff.mp h
    obtain ⟨nmethods, hnmethods, h⟩ := Option.bind_eq_some_iff.mp h
    obtain ⟨methods, hms, h⟩ := Option.bind_eq_some_iff.mp h
    obtain rfl := Option.some.inj h
    exact ⟨hnglobals, hnmethods, hmethods.mp hms⟩
  · rintro ⟨hnglobals, hnmethods, hms⟩
    simp only [hnglobals, hnmethods, Option.bind_eq_bind, Option.bind_some, hmethods.mpr hms]

/-! ## What is read -/

/-- An instruction begins at the start, and behind every instruction that begins before the end. -/
inductive Begins (bytes : List Word8) (start stop : Nat) : Nat → Prop
  | start : Begins bytes start stop start
  | next {a : Nat} {opcode : Word8} : Begins bytes start stop a → a < stop →
      bytes[a]? = some opcode → Begins bytes start stop (a + instructionLength opcode)

/-- The method table lies within the array, and every instruction that begins before the end of its
    method. -/
def Inside (bytes : List Word8) : Prop :=
  ∃ nmethods : Word8, bytes[1]? = some nmethods ∧ 2 + 4 * nmethods.toNat ≤ bytes.length ∧
    ∀ mi < nmethods.toNat, ∀ a,
      Begins bytes (methodStart bytes nmethods.toNat mi) (methodStop bytes nmethods.toNat mi) a →
      a < methodStop bytes nmethods.toNat mi →
      ∃ opcode, bytes[a]? = some opcode ∧ a + instructionLength opcode ≤ bytes.length

variable {l : Line}

/-- A line has the bytes of its instruction, which lie within the array. -/
theorem LineAt.next (h : LineAt bytes start a b l) : ∃ opcode, bytes[a]? = some opcode ∧
    b = a + instructionLength opcode ∧ b ≤ bytes.length ∧ b = a + l.bytes.length := by
  have hread : ∀ {i v}, bytes[i]? = some v → i < bytes.length :=
    fun hv => (List.getElem?_eq_some_iff.mp hv).1
  cases h with
  | plain hopcode hoperand =>
    exact ⟨_, hopcode, by rw [instructionLength, hoperand]; rfl, hread hopcode, rfl⟩
  | byte hopcode hoperand hvalue =>
    exact ⟨_, hopcode, by rw [instructionLength, hoperand]; rfl, hread hvalue, rfl⟩
  | short hopcode hoperand _ hhi | jump hopcode hoperand _ hhi =>
    exact ⟨_, hopcode, by rw [instructionLength, hoperand]; rfl, hread hhi, rfl⟩

theorem LineAt.codeOffset (h : LineAt bytes start a b l) :
    l.codeOffset = BitVec.ofNat 32 (a - start) := by
  cases h <;> rfl

/-- An instruction within the array has its line. -/
theorem lineAt_of_inside {opcode : Word8} (hopcode : bytes[a]? = some opcode)
    (hlen : a + instructionLength opcode ≤ bytes.length) (start : Nat) :
    ∃ l, LineAt bytes start a (a + instructionLength opcode) l := by
  unfold instructionLength at *
  cases hoperand : operandOf (decode opcode) with
  | none => exact ⟨_, .plain hopcode hoperand⟩
  | byte =>
    simp only [hoperand, Operand.length] at hlen
    exact ⟨_, .byte hopcode hoperand (List.getElem?_eq_getElem (by omega))⟩
  | short =>
    simp only [hoperand, Operand.length] at hlen
    exact ⟨_, .short hopcode hoperand (List.getElem?_eq_getElem (by omega))
      (List.getElem?_eq_getElem (by omega))⟩
  | jump =>
    simp only [hoperand, Operand.length] at hlen
    exact ⟨_, .jump hopcode hoperand (List.getElem?_eq_getElem (by omega))
      (List.getElem?_eq_getElem (by omega))⟩

/-- A method is printed when its instructions lie within the array. -/
theorem row_iff_inside : (∃ lines, (codeReader bytes start).Row stop start lines) ↔
    ∀ a, Begins bytes start stop a → a < stop →
      ∃ opcode, bytes[a]? = some opcode ∧ a + instructionLength opcode ≤ bytes.length := by
  simp only [← Lib.Reader.sweep_eq_some_iff, Lib.Reader.sweep_isSome_iff]
  constructor
  · intro h a ha
    -- the sweep comes to every place where an instruction begins
    have hmeets : (codeReader bytes start).Meets stop start a := by
      induction ha with
      | start => exact .start
      | next _ hlt hopcode ih =>
        obtain ⟨⟨b, l⟩, hread⟩ := h _ ih hlt
        obtain ⟨opcode', hopcode', rfl, -, -⟩ := (codeReader_read_iff.mp hread).next
        obtain rfl := Option.some.inj (hopcode.symm.trans hopcode')
        exact ih.next hlt hread
    intro hlt
    obtain ⟨⟨b, l⟩, hread⟩ := h a hmeets hlt
    obtain ⟨opcode, hopcode, rfl, hle, -⟩ := (codeReader_read_iff.mp hread).next
    exact ⟨opcode, hopcode, hle⟩
  · intro h a ha hlt
    have hbegins : Begins bytes start stop a := by
      induction ha with
      | start => exact .start
      | next _ hlt' hread ih =>
        obtain ⟨opcode, hopcode, rfl, -, -⟩ := (codeReader_read_iff.mp hread).next
        exact (ih hlt').next hlt' hopcode
    obtain ⟨opcode, hopcode, hle⟩ := h a hbegins hlt
    obtain ⟨l, hl⟩ := lineAt_of_inside hopcode hle start
    exact ⟨_, codeReader_read_iff.mpr hl⟩

/-- **The dump is printed exactly when all that is read lies within the array.** -/
theorem dump_isSome_iff {programData : QByteArray} :
    (∃ d, dump programData = some d) ↔ Inside programData.data := by
  constructor
  · rintro ⟨d, h⟩
    obtain ⟨-, hnmethods, hlen, hms⟩ := dump_eq_some.mp h
    have hmethod : ∀ mi < d.nmethods.toNat, ∃ md, MethodAt programData.data d.nmethods.toNat mi md :=
      fun mi hmi => ⟨_, hms mi _ (List.getElem?_eq_getElem (hlen ▸ hmi))⟩
    refine ⟨d.nmethods, hnmethods, ?_, fun mi hmi => ?_⟩
    · -- the last entry is read
      rcases Nat.eq_zero_or_pos d.nmethods.toNat with hzero | hpos
      · have := (List.getElem?_eq_some_iff.mp hnmethods).1
        omega
      · obtain ⟨md, hmd⟩ := hmethod (d.nmethods.toNat - 1) (by omega)
        obtain ⟨lo, hi, -, hhi, -⟩ := shortAt_eq_some.mp hmd.codeOffset
        have := (List.getElem?_eq_some_iff.mp hhi).1
        omega
    · obtain ⟨md, hmd⟩ := hmethod mi hmi
      exact row_iff_inside.mp ⟨md.lines, hmd.lines⟩
  · rintro ⟨nmethods, hnmethods, htable, hinside⟩
    have hshort : ∀ mi < nmethods.toNat, ∃ v, shortAt programData.data (2 + 4 * mi + 2) = some v :=
      fun mi hmi => ⟨_, shortAt_eq_some.mpr ⟨_, _, List.getElem?_eq_getElem (by omega),
        List.getElem?_eq_getElem (by omega), rfl⟩⟩
    have hmethod : ∀ mi : Fin nmethods.toNat,
        ∃ md, MethodAt programData.data nmethods.toNat mi md := by
      intro mi
      obtain ⟨codeOffset, hoffset⟩ := hshort mi mi.isLt
      obtain ⟨lines, hlines⟩ := row_iff_inside.mpr (hinside mi mi.isLt)
      exact ⟨⟨_, _, codeOffset, lines⟩, List.getElem?_eq_getElem (by omega),
        List.getElem?_eq_getElem (by omega), hoffset, fun hlast => hshort _ (by omega), hlines⟩
    choose md hmd using hmethod
    refine ⟨⟨_, nmethods, List.ofFn md⟩, dump_eq_some.mpr ⟨List.getElem?_eq_getElem (by omega),
      hnmethods, List.length_ofFn, fun mi md' h => ?_⟩⟩
    dsimp only at h ⊢
    obtain ⟨hmi, rfl⟩ := List.getElem?_eq_some_iff.mp h
    rw [List.getElem_ofFn]
    exact hmd ⟨mi, List.length_ofFn (f := md) ▸ hmi⟩

/-! ## Beside the machine -/

/-- The lines from `pos` on are the instructions of the machine, one behind the other, up to the end of
    the method. -/
inductive Split (s : Vm.Storage) (start stop : Nat) : Nat → List Line → Prop
  | done {pos : Nat} : stop ≤ start + pos → Split s start stop pos []
  | line {pos : Nat} {l : Line} {ls : List Line} : start + pos < stop → l.codeOffset.toNat = pos →
      l.Executed s start → Split s start stop (pos + l.bytes.length) ls →
      Split s start stop pos (l :: ls)

/-- The machine, which finds the program at `p`, has the method `mi` as it is printed. -/
structure MethodDump.Agrees (s : Vm.Storage) (p length nmethods mi : Nat) (md : MethodDump) : Prop where
  method : methodAt s p mi = some ⟨md.nargs.toNat, md.nlocals.toNat, md.codeOffset.toNat⟩
  split : ∃ base stop, codeBase s p = some base ∧
    (if mi + 1 = nmethods then stop = p + length
      else ∃ m, methodAt s p (mi + 1 : Nat) = some m ∧ stop = base + m.codeOffset) ∧
    Split s (base + md.codeOffset.toNat) stop 0 md.lines

/-- It has the program as it is printed. -/
structure Dump.Agrees (s : Vm.Storage) (p length : Nat) (d : Dump) : Prop where
  nglobals : nglobalsAt s p = some d.nglobals.toNat
  nmethods : s (p + 1) = some d.nmethods
  methods : d.methods.length = d.nmethods.toNat
  method : ∀ (mi : Nat) md, d.methods[mi]? = some md → md.Agrees s p length d.nmethods.toNat mi

section

variable {s : Vm.Storage} {p : Nat}

theorem codeOffset_toNat (h : LineAt bytes start a b l) (hlen : bytes.length < 2 ^ 31) :
    l.codeOffset.toNat = a - start := by
  obtain ⟨opcode, hopcode, -⟩ := h.next
  have ha := (List.getElem?_eq_some_iff.mp hopcode).1
  rw [h.codeOffset, BitVec.toNat_ofNat, Nat.mod_eq_of_lt (by omega)]

/-- The lines of a method are the instructions of the machine. -/
theorem split_of_row {lines : List Line} (h : (codeReader bytes start).Row stop a lines)
    (hle : start ≤ a) (hlen : bytes.length < 2 ^ 31) (hs : s.Holds p bytes) :
    Split s (p + start) (p + stop) (a - start) lines := by
  induction h with
  | done ha => exact .done (by omega)
  | @item a b l lines ha hread _ ih =>
    replace hread := codeReader_read_iff.mp hread
    obtain ⟨opcode, -, hb, -, hb'⟩ := hread.next
    have hnext : b - start = a - start + l.bytes.length := by omega
    refine .line (by omega) (codeOffset_toNat hread hlen) (hread.executed hle hlen hs) ?_
    rw [← hnext]
    exact ih (by omega)

theorem methodAt_of_methodAt (h : MethodAt bytes nmethods mi md) (hs : s.Holds p bytes) :
    methodAt s p mi = some ⟨md.nargs.toNat, md.nlocals.toNat, md.codeOffset.toNat⟩ := by
  obtain ⟨lo, hi, hlo, hhi, hoffset⟩ := shortAt_eq_some.mp h.codeOffset
  have haddr : ((p : Int) + 2 + 4 * (mi : Int)).toNat = p + (2 + 4 * mi) := by omega
  have h0 := hs _ _ h.nargs
  have h1 := hs _ _ h.nlocals
  have h2 := hs _ _ hlo
  have h3 := hs _ _ hhi
  simp only [← Nat.add_assoc] at h0 h1 h2 h3
  simp only [methodAt, haddr, ← Nat.add_assoc, h0, h1, h2, h3, hoffset]

/-- **What is printed is what the machine has.** -/
theorem dump_agrees {programData : QByteArray} {d : Dump} (h : dump programData = some d)
    (hs : s.Holds p programData.data) : d.Agrees s p programData.data.length := by
  obtain ⟨hnglobals, hnmethods, hmethods, hms⟩ := dump_eq_some.mp h
  have hbase : codeBase s p = some (p + (2 + 4 * d.nmethods.toNat)) := by
    rw [codeBase, hs 1 _ hnmethods, Option.map_some]
    congr 1
    omega
  refine ⟨congrArg (Option.map _) (hs 0 _ hnglobals), hs 1 _ hnmethods, hmethods, fun mi md hmd => ?_⟩
  have hmethod := hms mi md hmd
  have hmi : mi < d.methods.length := (List.getElem?_eq_some_iff.mp hmd).1
  refine ⟨methodAt_of_methodAt hmethod hs, _, p + methodStop programData.data d.nmethods.toNat mi,
    hbase, ?_, ?_⟩
  · by_cases hlast : mi + 1 = d.nmethods.toNat
    · rw [if_pos hlast, methodStop, if_pos hlast]
    · rw [if_neg hlast, methodStop, if_neg hlast]
      have hnext := hms (mi + 1) _ (List.getElem?_eq_getElem (by omega))
      refine ⟨_, methodAt_of_methodAt hnext hs, ?_⟩
      rw [methodStart, entryOffset_eq hnext.codeOffset, ← Nat.add_assoc]
  · have hsplit := split_of_row hmethod.lines (Nat.le_refl _) programData.length_lt hs
    rw [Nat.sub_self, methodStart, entryOffset_eq hmethod.codeOffset, ← Nat.add_assoc] at hsplit
    exact hsplit

end

/-! ## The images of the compiler -/

/-- The method is printed with its code where it lies, instruction by instruction.  In short code every
    jump is printed with a place where a line begins, or the end. -/
structure MethodDump.Shows (md : MethodDump) (bm : BytecodeMethod) (offset : Nat) : Prop where
  codeOffset : md.codeOffset.toNat = offset
  lines : ∃ cs, cs.flatten = bm.body ∧ Instructions (Boundary cs) 0 cs ∧
    List.Forall₂ (fun c l => c.mapM bytecodeByte = .ok l.bytes) cs md.lines
  targets : bm.body.length < 32768 → ∀ l ∈ md.lines, (∃ opcode ∈ l.bytes.head?, opcode ∈ jumpOperand) →
    ∃ t : Nat, l.prettyInstruction.operand = some (BitVec.ofNat 32 t) ∧
      (t = bm.body.length ∨ ∃ l' ∈ md.lines, l'.codeOffset = BitVec.ofNat 32 t)

/-- So is every method of the program. -/
structure Dump.Shows (d : Dump) (bp : BytecodeProgram) : Prop where
  methods : d.methods.length = bp.methods.length
  method : ∀ (i : Nat) md bm, d.methods[i]? = some md → bp.methods[i]? = some bm →
    md.Shows bm (Compiler.codeOffset bp.methods i)

/-- The number of methods and the offsets of their codes fit the fields of the header. -/
structure HeaderFits (bp : BytecodeProgram) : Prop where
  methods : bp.methods.length < 256
  offsets : ∀ i < bp.methods.length, codeOffset bp.methods i < 65536

section

variable {T : Nat → Prop}

/-- A jump of less than 32768 bytes is printed with its target. -/
theorem operand_jumpTo {pos t : Nat} {lo hi : Word8} (hpos : pos < 32768) (ht : t < 32768)
    (h : jumpTo id pos t = [.immediateByte lo, .immediateByte hi]) :
    BitVec.ofNat 32 pos + (shortOf lo hi).signExtend 32 = BitVec.ofNat 32 t := by
  obtain ⟨hlo, h⟩ := List.cons.inj h
  obtain ⟨hhi, -⟩ := List.cons.inj h
  rw [← Bytecode.immediateByte.inj hlo, ← Bytecode.immediateByte.inj hhi, compiler_lowByte,
    compiler_highByte, shortOf_bytes, BitVec.signExtend, BitVec.toInt_ofInt,
    Int.bmod_eq_of_le (by simp only [id]; omega) (by simp only [id]; omega), ← BitVec.ofInt_natCast,
    ← BitVec.ofInt_add, ← BitVec.ofInt_natCast]
  congr 1
  simp only [id]
  omega

/-- An instruction in the array has its line, which shows its bytes and its target. -/
theorem lineAt_of_instruction {c : List Bytecode} {pos : Nat} (hc : IsInstruction T pos c)
    (hcode : CodeAt (fun a => bytes[a]?) (start + pos) c) :
    ∃ l, LineAt bytes start (start + pos) (start + pos + c.length) l ∧
      c.mapM bytecodeByte = .ok l.bytes ∧
      ((∃ opcode ∈ l.bytes.head?, opcode ∈ jumpOperand) → ∃ t, T t ∧ (pos < 32768 → t < 32768 →
        l.prettyInstruction.operand = some (BitVec.ofNat 32 t))) := by
  obtain ⟨c0, op, operands, rfl, hop, hlen, himm, hjump⟩ := hc
  obtain ⟨⟨opcode, hbyte, hread⟩, hcode⟩ := hcode
  have hdec := decode_bytecodeByte hbyte hop
  -- no target is asked for but of a jump
  have hnojump : operandOf (some op) ≠ .jump → ∀ {bs : List Word8} {P : Prop},
      (∃ o ∈ (opcode :: bs).head?, o ∈ jumpOperand) → P := by
    rintro hne bs P ⟨o, ho, hmem⟩
    obtain rfl := Option.some.inj ho
    rw [(operand_agrees opcode).2.2, hdec] at hmem
    exact absurd hmem hne
  have htwo : operands.length = 2 → ∃ lo hi, operands = [.immediateByte lo, .immediateByte hi] ∧
      bytes[start + pos + 1]? = some lo ∧ bytes[start + pos + 2]? = some hi := by
    intro htwo
    obtain ⟨b0, b1, rfl⟩ := List.length_eq_two.mp htwo
    obtain ⟨lo, rfl⟩ := himm b0 List.mem_cons_self
    obtain ⟨hi, rfl⟩ := himm b1 (List.mem_cons_of_mem _ List.mem_cons_self)
    obtain ⟨⟨lo', hlo, hreadlo⟩, ⟨hi', hhi, hreadhi⟩, -⟩ := hcode
    cases hlo
    cases hhi
    exact ⟨lo, hi, rfl, hreadlo, hreadhi⟩
  cases hoperand : operandOf (some op) with
  | none =>
    rw [hoperand] at hlen
    obtain rfl := List.length_eq_zero_iff.mp hlen
    exact ⟨_, .plain hread (hdec ▸ hoperand), by rw [List.mapM_cons, hbyte]; rfl,
      hnojump (by rw [hoperand]; decide)⟩
  | byte =>
    rw [hoperand] at hlen
    obtain ⟨b0, rfl⟩ := List.length_eq_one_iff.mp hlen
    obtain ⟨v, rfl⟩ := himm b0 List.mem_cons_self
    obtain ⟨⟨v', hv, hread'⟩, -⟩ := hcode
    cases hv
    exact ⟨_, .byte hread (hdec ▸ hoperand) hread', by rw [List.mapM_cons, hbyte]; rfl,
      hnojump (by rw [hoperand]; decide)⟩
  | short =>
    obtain ⟨lo, hi, rfl, hlo, hhi⟩ := htwo (by rw [hlen, hoperand]; rfl)
    exact ⟨_, .short hread (hdec ▸ hoperand) hlo hhi, by rw [List.mapM_cons, hbyte]; rfl,
      hnojump (by rw [hoperand]; decide)⟩
  | jump =>
    obtain ⟨lo, hi, rfl, hlo, hhi⟩ := htwo (by rw [hlen, hoperand]; rfl)
    obtain ⟨t, ht, hto⟩ := hjump hoperand
    refine ⟨_, .jump hread (hdec ▸ hoperand) hlo hhi, by rw [List.mapM_cons, hbyte]; rfl,
      fun _ => ⟨t, ht, fun hpos hsmall => ?_⟩⟩
    rw [Nat.add_sub_cancel_left]
    exact congrArg some (operand_jumpTo hpos hsmall hto.symm)

/-- Instructions in the array have their lines, one behind the other. -/
theorem row_of_instructions {cs : List (List Bytecode)} {pos : Nat} (h : Instructions T pos cs)
    (hcode : CodeAt (fun a => bytes[a]?) (start + pos) cs.flatten) :
    ∃ lines, (codeReader bytes start).Row (start + pos + cs.flatten.length) (start + pos) lines ∧
      List.Forall₂ (fun c l => c.mapM bytecodeByte = .ok l.bytes) cs lines ∧
      (∀ l ∈ lines, (∃ opcode ∈ l.bytes.head?, opcode ∈ jumpOperand) → ∃ t, T t ∧
        (pos + cs.flatten.length < 32768 → t < 32768 →
          l.prettyInstruction.operand = some (BitVec.ofNat 32 t))) ∧
      ∀ ds e es, cs = ds ++ e :: es →
        ∃ l ∈ lines, l.codeOffset = BitVec.ofNat 32 (pos + ds.flatten.length) := by
  induction h with
  | nil pos =>
    refine ⟨[], .done (Nat.le_refl _), .nil, fun l hl => (nomatch hl), fun ds e es h => ?_⟩
    exact absurd h.symm (by simp)
  | @cons pos c cs hc _ ih =>
    rw [List.flatten_cons, codeAt_append] at hcode
    obtain ⟨l, hl, hbytes, htarget⟩ := lineAt_of_instruction hc hcode.1
    obtain ⟨lines, hrow, hall, htargets, hbegin⟩ := ih (by rw [← Nat.add_assoc]; exact hcode.2)
    have hlt := (codeReader bytes start).lt (codeReader_read_iff.mpr hl)
    have hend : start + pos + (c :: cs).flatten.length = start + (pos + c.length) + cs.flatten.length := by
      rw [List.flatten_cons, List.length_append]
      omega
    refine ⟨l :: lines, .item ?_ (codeReader_read_iff.mpr hl) ?_, .cons hbytes hall, fun l' hl' hjump => ?_,
      fun ds e es h => ?_⟩
    · rw [hend]
      omega
    · rw [hend, Nat.add_assoc start pos]
      exact hrow
    · rw [List.flatten_cons, List.length_append]
      rcases List.mem_cons.mp hl' with rfl | hl'
      · obtain ⟨t, ht, hoperand⟩ := htarget hjump
        exact ⟨t, ht, fun hsmall => hoperand (by omega)⟩
      · obtain ⟨t, ht, hoperand⟩ := htargets l' hl' hjump
        exact ⟨t, ht, fun hsmall => hoperand (by omega)⟩
    · cases ds with
      | nil =>
        exact ⟨l, List.mem_cons_self, by rw [hl.codeOffset, Nat.add_sub_cancel_left]; rfl⟩
      | cons d ds =>
        obtain ⟨rfl, htail⟩ := List.cons.inj h
        obtain ⟨l', hl', hoffset⟩ := hbegin ds e es htail
        refine ⟨l', List.mem_cons_of_mem _ hl', ?_⟩
        rw [hoffset, List.flatten_cons, List.length_append, Nat.add_assoc]

variable {parse : String → Except String (List Declaration)} {source : String}
  {decs : List Declaration} {ast : TProgram} {ir : IRProgram} {bp : BytecodeProgram}
  {image : List Word8} {programData : QByteArray} {d : Dump}

theorem binaryProgram_header (h : binaryProgram bp = .ok image) :
    image[1]? = some (BitVec.ofNat 8 bp.methods.length) := by
  obtain ⟨⟨index, programData⟩, -, h⟩ := bind_eq_ok.mp h
  obtain rfl := Except.ok.inj h
  rfl

/-- Where the header of an image places a method. -/
theorem method_placed (h : binaryProgram bp = .ok image) (hf : HeaderFits bp) {i : Nat}
    {bm : BytecodeMethod} (hbm : bp.methods[i]? = some bm) :
    methodStart image bp.methods.length i = codeStart 0 bp.methods i ∧
      methodStop image bp.methods.length i = codeStart 0 bp.methods i + bm.body.length := by
  have hreads := binaryProgram_reads h (holds_image image)
  have hstart : ∀ j < bp.methods.length,
      methodStart image bp.methods.length j = codeStart 0 bp.methods j := by
    intro j hj
    have hmethod := (hreads.method j _ (List.getElem?_eq_getElem hj)).1
    have haddr : ((0 : Nat) + 2 + 4 * (j : Int)).toNat = 2 + 4 * j := by omega
    simp only [methodAt, haddr] at hmethod
    split at hmethod
    case h_2 => cases hmethod
    case h_1 nargs nlocals lo hi h0 h1 h2 h3 =>
    have hoffset : shortAt image (2 + 4 * j + 2) = some (shortOf lo hi) :=
      shortAt_eq_some.mpr ⟨lo, hi, h2, h3, rfl⟩
    have hvalue := congrArg Method.codeOffset (Option.some.inj hmethod)
    dsimp only at hvalue
    rw [methodStart, entryOffset_eq hoffset, hvalue, Nat.mod_eq_of_lt (hf.offsets j hj), codeStart,
      Nat.zero_add]
  have hi := (List.getElem?_eq_some_iff.mp hbm).1
  have hnext : codeStart 0 bp.methods (i + 1) = codeStart 0 bp.methods i + bm.body.length := by
    simp only [codeStart, codeOffset_succ hbm, Nat.add_assoc]
  refine ⟨hstart i hi, ?_⟩
  rw [methodStop, ← hnext]
  by_cases hlast : i + 1 = bp.methods.length
  · rw [if_pos hlast, hlast, binaryProgram_length h]
  · rw [if_neg hlast]
    exact hstart (i + 1) (by omega)

/-- The lines of a method of an image. -/
theorem compiled_lines (h : Compiled parse source decs ast ir bp image) (hf : HeaderFits bp) {i : Nat}
    {bm : BytecodeMethod} (hbm : bp.methods[i]? = some bm) : ∃ cs lines, cs.flatten = bm.body ∧
      Instructions (Boundary cs) 0 cs ∧
      (codeReader image (methodStart image bp.methods.length i)).Row
        (methodStop image bp.methods.length i) (methodStart image bp.methods.length i) lines ∧
      List.Forall₂ (fun c l => c.mapM bytecodeByte = .ok l.bytes) cs lines ∧
      (∀ l ∈ lines, (∃ opcode ∈ l.bytes.head?, opcode ∈ jumpOperand) → ∃ t, Boundary cs t ∧
        (0 + cs.flatten.length < 32768 → t < 32768 →
          l.prettyInstruction.operand = some (BitVec.ofNat 32 t))) ∧
      ∀ ds e es, cs = ds ++ e :: es →
        ∃ l ∈ lines, l.codeOffset = BitVec.ofNat 32 (0 + ds.flatten.length) := by
  obtain ⟨cs, hcs, hinstrs⟩ := h.instructions hbm
  obtain ⟨hstart, hstop⟩ := method_placed h.binary hf hbm
  have hcode := ((binaryProgram_reads h.binary (holds_image image)).method i bm hbm).2
  rw [← hcs] at hcode
  obtain ⟨lines, hrow, hall, htargets, hbegin⟩ := row_of_instructions hinstrs hcode
  refine ⟨cs, lines, hcs, hinstrs, ?_, hall, htargets, hbegin⟩
  rw [hstart, hstop, ← hcs]
  exact hrow

theorem methods_toNat (hf : HeaderFits bp) :
    (BitVec.ofNat 8 bp.methods.length : Word8).toNat = bp.methods.length := by
  rw [BitVec.toNat_ofNat, Nat.mod_eq_of_lt hf.methods]

/-- An image whose counts fit its header lies within itself. -/
theorem compiled_inside (h : Compiled parse source decs ast ir bp image) (hf : HeaderFits bp) :
    Inside image := by
  refine ⟨_, binaryProgram_header h.binary, ?_, ?_⟩
  · rw [methods_toNat hf, binaryProgram_length h.binary, codeStart]
    omega
  · rw [methods_toNat hf]
    intro mi hmi
    obtain ⟨cs, lines, -, -, hrow, -⟩ := compiled_lines h hf (List.getElem?_eq_getElem hmi)
    exact row_iff_inside.mp ⟨lines, hrow⟩

/-- **An image is printed as the compiler made it.** -/
theorem compiled_shows (h : Compiled parse source decs ast ir bp programData.data)
    (hf : HeaderFits bp) (hd : dump programData = some d) : d.Shows bp := by
  obtain ⟨-, hnmethods, hmethods, hms⟩ := dump_eq_some.mp hd
  have hn : d.nmethods.toNat = bp.methods.length := by
    rw [← Option.some.inj ((binaryProgram_header h.binary).symm.trans hnmethods), methods_toNat hf]
  rw [hn] at hmethods hms
  refine ⟨hmethods, fun i md bm hmd hbm => ?_⟩
  have hmethod := hms i md hmd
  obtain ⟨cs, lines, hcs, hinstrs, hrow, hall, htargets, hbegin⟩ := compiled_lines h hf hbm
  -- the sweep has one result
  obtain rfl : lines = md.lines := Option.some.inj
    ((Lib.Reader.sweep_eq_some_iff.mpr hrow).symm.trans (Lib.Reader.sweep_eq_some_iff.mpr hmethod.lines))
  refine ⟨?_, ⟨cs, hcs, hinstrs, hall⟩, fun hsmall l hl hjump => ?_⟩
  · obtain ⟨hstart, -⟩ := method_placed h.binary hf hbm
    rw [methodStart, entryOffset_eq hmethod.codeOffset, codeStart] at hstart
    omega
  · obtain ⟨t, ht, hoperand⟩ := htargets l hl hjump
    obtain ⟨ds, es, hsplit, rfl⟩ := ht
    rw [← hcs] at hsmall
    have hle : ds.flatten.length ≤ cs.flatten.length := by
      rw [hsplit, List.flatten_append, List.length_append]
      omega
    refine ⟨_, hoperand (by omega) (by omega), ?_⟩
    cases es with
    | nil =>
      left
      rw [← hcs, hsplit, List.append_nil]
    | cons e es =>
      right
      obtain ⟨l', hl', hoffset⟩ := hbegin ds e es hsplit
      exact ⟨l', hl', by rw [hoffset, Nat.zero_add]⟩

/-- **The images of the compiler are disassembled**, as the machine has them and as the compiler made
    them. -/
theorem compiled_disassembled (h : Compiled parse source decs ast ir bp programData.data)
    (hf : HeaderFits bp) : ∃ d, dump programData = some d ∧
      (∀ s p, Vm.Storage.Holds s p programData.data → d.Agrees s p programData.data.length) ∧
      d.Shows bp := by
  obtain ⟨d, hd⟩ := dump_isSome_iff.mpr (compiled_inside h hf)
  exact ⟨d, hd, fun s p hs => dump_agrees hd hs, compiled_shows h hf hd⟩

/-- What an image shows fits its header. -/
theorem headerFits_of_shows (h : dump programData = some d) (hs : d.Shows bp) : HeaderFits bp := by
  obtain ⟨-, -, hmethods, -⟩ := dump_eq_some.mp h
  have hn := d.nmethods.isLt
  refine ⟨by rw [← hs.methods, hmethods]; exact hn, fun i hi => ?_⟩
  have hshow := hs.method i _ _ (List.getElem?_eq_getElem (hs.methods ▸ hi))
    (List.getElem?_eq_getElem hi)
  rw [← hshow.codeOffset]
  exact BitVec.isLt _

end

/-! ## The disassembler -/

/-- The disassembler reads nothing outside the array; what it prints is what a machine has that finds
    the array in its storage; and an image of the compiler is printed instruction by instruction. -/
def Right (programData : QByteArray) : Prop :=
  ∃ d, dump programData = some d ∧
    (∀ s p, Vm.Storage.Holds s p programData.data → d.Agrees s p programData.data.length) ∧
    ∀ parse source decs ast ir bp, Compiled parse source decs ast ir bp programData.data → d.Shows bp

/-- **The disassembler is right exactly when all that it reads lies within the array**, and an image of
    the compiler fits its header. -/
theorem disassemble_right_iff (programData : QByteArray) :
    Right programData ↔ Inside programData.data ∧
      ∀ parse source decs ast ir bp, Compiled parse source decs ast ir bp programData.data →
        HeaderFits bp := by
  constructor
  · rintro ⟨d, hd, -, hshows⟩
    exact ⟨dump_isSome_iff.mp ⟨d, hd⟩, fun parse source decs ast ir bp h =>
      headerFits_of_shows hd (hshows _ _ _ _ _ _ h)⟩
  · rintro ⟨hinside, hfits⟩
    obtain ⟨d, hd⟩ := dump_isSome_iff.mpr hinside
    exact ⟨d, hd, fun s p hs => dump_agrees hd hs, fun parse source decs ast ir bp h =>
      compiled_shows h (hfits _ _ _ _ _ _ h) hd⟩

/-- A program of one method that is cut off behind its header. -/
theorem disassemble_cut : disassemble ⟨[0, 1], by decide⟩ = none ∧ ¬ Right ⟨[0, 1], by decide⟩ := by
  have hnone : dump ⟨[0, 1], by decide⟩ = none := rfl
  refine ⟨by rw [disassemble, hnone]; rfl, ?_⟩
  rintro ⟨d, hd, -⟩
  cases hnone.symm.trans hd

end KeyboardFirmware.Disassembler
