/-
  The layout of a binary program: a header, a table of the methods, and their codes.

  The writer narrows every count and size to its field, so all of them are right modulo the size of
  the field (`allocateVarSlots_size`, `argLength_size`, `calculateMethods_ok`).
-/
import KeyboardFirmware.Compiler.Arithmetic

namespace KeyboardFirmware.Compiler

/-! ## Computations on lists -/

/-- Every element has its result, in its place. -/
theorem mapM_ok {α β : Type} {f : α → ThrowsError β} : ∀ {xs : List α} {ys : List β},
    xs.mapM f = .ok ys → ys.length = xs.length ∧
      ∀ (i : Nat) x, xs[i]? = some x → ∃ y, ys[i]? = some y ∧ f x = .ok y
  | [], ys, h => by
    obtain rfl := Except.ok.inj h
    exact ⟨rfl, fun i x hx => (nomatch hx)⟩
  | x :: xs, ys, h => by
    simp only [List.mapM_cons, bind_eq_ok] at h
    obtain ⟨y, hy, ys', hys, h⟩ := h
    obtain rfl := Except.ok.inj h
    obtain ⟨hlen, hget⟩ := mapM_ok hys
    refine ⟨by rw [List.length_cons, hlen, List.length_cons], fun i x' hx' => ?_⟩
    cases i with
    | zero =>
      obtain rfl := Option.some.inj hx'
      exact ⟨y, rfl, hy⟩
    | succ i => exact hget i x' hx'

/-! ## Sizes -/

/-- The size of the variables, in a byte. -/
theorem allocateVarSlots_size {vars : List TVariable} {slots : VarAllocation} {n : Word8}
    (h : allocateVarSlots vars = .ok (slots, n)) : n = BitVec.ofNat 8 (bytesOf (vars.map (·.typ))) := by
  have hrun : ∀ (vars : List TVariable) {m m' : VarAllocation} {k k' : Word8},
      vars.foldlM (fun (m : VarAllocation × Word8) v => do
        let size ← typeSize v.typ
        .ok ((v.id, m.2.toNat, v.typ) :: m.1, m.2 + size)) (m, k) = .ok (m', k') →
      k' = k + BitVec.ofNat 8 (bytesOf (vars.map (·.typ))) := by
    intro vars
    induction vars with
    | nil =>
      intro m m' k k' h
      cases h
      simp [bytesOf]
    | cons v vars ih =>
      intro m m' k k' h
      simp only [List.foldlM_cons, bind_eq_ok] at h
      obtain ⟨_, ⟨size, hsize, hm⟩, hrest⟩ := h
      obtain rfl := Except.ok.inj hm
      rw [ih hrest, typeSize_ok hsize, BitVec.add_assoc, ← BitVec.ofNat_add]
      rfl
  simpa using hrun vars h

/-- The size of the arguments, in a byte. -/
theorem argLength_size : ∀ {ts : List Typ} {n : Word8}, argLength ts = .ok n →
    n = BitVec.ofNat 8 (bytesOf ts) := by
  have hrun : ∀ (ts : List Typ) {sizes : List Word8}, ts.mapM typeSize = .ok sizes →
      sizes.sum = BitVec.ofNat 8 (bytesOf ts) := by
    intro ts
    induction ts with
    | nil =>
      intro sizes h
      cases h
      rfl
    | cons t ts ih =>
      intro sizes h
      simp only [List.mapM_cons, bind_eq_ok] at h
      obtain ⟨size, hsize, sizes', hsizes, h⟩ := h
      obtain rfl := Except.ok.inj h
      rw [List.sum_cons, ih hsizes, typeSize_ok hsize, ← BitVec.ofNat_add]
      rfl
  intro ts n h
  obtain ⟨sizes, hsizes, h⟩ := bind_eq_ok.mp h
  obtain rfl := Except.ok.inj h
  exact hrun ts hsizes

/-! ## The method table -/

/-- How far behind the first code the code of a method starts. -/
def codeOffset (ms : List BytecodeMethod) (i : Nat) : Nat := ((ms.take i).map (·.body.length)).sum

/-- The entry of a method in the table. -/
def methodEntry (m : BytecodeMethod) (pos : Word16) : List Word8 :=
  [m.argSize, m.nLocals, lowByte pos, highByte pos]

/-- The table has an entry for every method, and its code stands in its place. -/
theorem calculateMethods_ok : ∀ {ms : List BytecodeMethod} {pos : Word16}
    {index programData : List (List Word8)}, calculateMethods pos ms = .ok (index, programData) →
      index.length = ms.length ∧ programData.length = ms.length ∧
        ∀ (i : Nat) m, ms[i]? = some m →
          index[i]? = some (methodEntry m (pos + BitVec.ofNat 16 (codeOffset ms i))) ∧
            ∃ code, programData[i]? = some code ∧ m.body.mapM bytecodeByte = .ok code
  | [], pos, index, programData, h => by
    cases h
    exact ⟨rfl, rfl, fun i m hm => (nomatch hm)⟩
  | m :: ms, pos, index, programData, h => by
    simp only [calculateMethods, bind_eq_ok, Prod.exists] at h
    obtain ⟨index', data', hrest, code, hcode, h⟩ := h
    obtain ⟨rfl, rfl⟩ := Prod.mk.inj (Except.ok.inj h)
    obtain ⟨hindex, hdata, hget⟩ := calculateMethods_ok hrest
    refine ⟨by rw [List.length_cons, hindex, List.length_cons],
      by rw [List.length_cons, hdata, List.length_cons], fun i m' hm' => ?_⟩
    cases i with
    | zero =>
      obtain rfl := Option.some.inj hm'
      refine ⟨?_, code, rfl, hcode⟩
      show some (methodEntry m pos) = some (methodEntry m (pos + 0#16))
      rw [BitVec.add_zero]
    | succ i =>
      obtain ⟨hentry, hcode'⟩ := hget i m' hm'
      refine ⟨?_, hcode'⟩
      have hoffset : codeOffset (m :: ms) (i + 1) = m.body.length + codeOffset ms i := by
        simp [codeOffset]
      rw [List.getElem?_cons_succ, hentry, hoffset, BitVec.ofNat_add, BitVec.add_assoc]

/-! ## Programs -/

/-- The back end: each method keeps its place, and the sizes are those of its variables. -/
theorem outputProgram_ok {ir : IRProgram} {bp : BytecodeProgram} (h : outputProgram ir = .ok bp) :
    ∃ gVars, allocateVarSlots ir.vars = .ok (gVars, bp.nGlobals) ∧
      bp.methods.length = ir.methods.length ∧
      ∀ (i : Nat) irm, ir.methods[i]? = some irm → ∃ bm, bp.methods[i]? = some bm ∧
        outputMethod gVars irm = .ok bm := by
  simp only [outputProgram, bind_eq_ok, Prod.exists] at h
  obtain ⟨gVars, n, hglobals, methods, hmethods, h⟩ := h
  obtain rfl := Except.ok.inj h
  obtain ⟨hlen, hget⟩ := mapM_ok hmethods
  exact ⟨gVars, hglobals, hlen, hget⟩

theorem outputMethod_ok {gVars : VarAllocation} {irm : IRMethod} {bm : BytecodeMethod}
    (h : outputMethod gVars irm = .ok bm) :
    bm.argSize = BitVec.ofNat 8 (bytesOf irm.argTypes) ∧
      bm.nLocals = BitVec.ofNat 8 (bytesOf (irm.vars.map (·.typ))) ∧
      ∃ lVars g, allocateVarSlots irm.vars = .ok (lVars, bm.nLocals) ∧
        nmapM (outputBlock gVars lVars) irm.graph = .ok g ∧ scheduleBlocks g = .ok bm.body := by
  simp only [outputMethod, bind_eq_ok, Prod.exists] at h
  obtain ⟨lVars, n, hlocals, g, hg, body, hbody, argSize, hargs, h⟩ := h
  obtain rfl := Except.ok.inj h
  exact ⟨argLength_size hargs, allocateVarSlots_size hlocals, lVars, g, hlocals, hg, hbody⟩

/-- The middle: each method keeps its place, its arguments and its variables. -/
theorem buildIR_ok {p : TProgram} {ir : IRProgram} (h : buildIR p = .ok ir) :
    ir.vars = p.vars ∧ ir.methods.length = p.methods.length ∧
      ∀ (i : Nat) m, p.methods[i]? = some m → ∃ irm, ir.methods[i]? = some irm ∧ buildIRMethod m = .ok irm := by
  obtain ⟨methods, hmethods, h⟩ := bind_eq_ok.mp h
  obtain rfl := Except.ok.inj h
  obtain ⟨hlen, hget⟩ := mapM_ok hmethods
  exact ⟨rfl, hlen, hget⟩

end KeyboardFirmware.Compiler
