/-
  The slots of the variables, as the machine addresses them.

  The compiler lays the variables of a method, and the globals, out one after the other in an 8-bit
  counter; the machine takes the operand of a load or a store as a signed byte.  Everything is right
  as long as every variable begins below 128 (`slots_right_iff`), and nobody looks whether it does.
-/
import KeyboardFirmware.Vm.Image

namespace KeyboardFirmware.Vm

open Compiler

/-! ## One after the other -/

/-- Where the `i`-th of some variables begins. -/
def slotOffset (ts : List Typ) (i : Nat) : Nat := bytesOf (ts.take i)

variable {ts : List Typ} {t : Typ} {i j : Nat}

theorem slotOffset_succ (h : ts[i]? = some t) :
    slotOffset ts (i + 1) = slotOffset ts i + typeBytes t := by
  unfold slotOffset bytesOf
  rw [List.take_add_one, h, List.map_append, List.sum_append]
  rfl

theorem slotOffset_mono (h : i ≤ j) : slotOffset ts i ≤ slotOffset ts j := by
  obtain ⟨k, rfl⟩ := Nat.exists_eq_add_of_le h
  unfold slotOffset bytesOf
  rw [List.take_add, List.map_append, List.sum_append]
  exact Nat.le_add_right _ _

theorem slotOffset_length : slotOffset ts ts.length = bytesOf ts := by
  rw [slotOffset, List.take_length]

/-- Every byte of the whole is one of some variable. -/
theorem exists_slot : ∀ {ts : List Typ} {x : Nat}, x < bytesOf ts →
    ∃ (i : Nat) (t : Typ), ts[i]? = some t ∧ slotOffset ts i ≤ x ∧ x < slotOffset ts i + typeBytes t
  | [], x, h => (nomatch h)
  | u :: ts, x, h => by
    have hcons : bytesOf (u :: ts) = typeBytes u + bytesOf ts := rfl
    by_cases hx : x < typeBytes u
    · exact ⟨0, u, rfl, Nat.zero_le _, by simpa [slotOffset, bytesOf] using hx⟩
    · obtain ⟨i, t, ht, hle, hlt⟩ := exists_slot (by omega : x - typeBytes u < bytesOf ts)
      have hnext : slotOffset (u :: ts) (i + 1) = typeBytes u + slotOffset ts i := rfl
      exact ⟨i + 1, t, ht, by omega, by omega⟩

/-! ## What is right -/

/-- The slots of variables of the types `ts`: `size` is what the image says they take, `addr` how the
    machine addresses them, from `base` on. -/
structure SlotsRight (ts : List Typ) (slots : VarAllocation) (size : Nat)
    (addr : Vmstate → VByte → Nat) (base : Vmstate → Nat) : Prop where
  slot : ∀ (i : Nat) t, ts[i]? = some t → slots.lookup i = some (slotOffset ts i, t)
  only : ∀ i, ts.length ≤ i → slots.lookup i = none
  disjoint : ∀ i j a b t u, i ≠ j → slots.lookup i = some (a, t) → slots.lookup j = some (b, u) →
    a + typeBytes t ≤ b ∨ b + typeBytes u ≤ a
  covers : ∀ x, x < bytesOf ts ↔
    ∃ i a t, slots.lookup i = some (a, t) ∧ a ≤ x ∧ x < a + typeBytes t
  size : size = bytesOf ts
  operand : ∀ i a t, slots.lookup i = some (a, t) → ∀ vm, addr vm (slotByte a) = base vm + a

/-- The slots of a program: those of the globals, and those of every method, whose parameters come
    first, where the bytes that are pushed for them go. -/
structure ProgramSlots (decs : List Declaration) (ir : IRProgram) (s : Storage) (p : Nat) : Prop where
  globals : ∀ gVars n, allocateVarSlots ir.vars = .ok (gVars, n) → ∃ size, nglobalsAt s p = some size ∧
    SlotsRight (globalTypes decs) gVars size Vmstate.globalAddr (·.stack)
  locals : ∀ (i : Nat) d irm, (methodDecs decs)[i]? = some d → ir.methods[i]? = some irm →
    ∀ lVars n, allocateVarSlots irm.vars = .ok (lVars, n) → ∃ m, methodAt s p i = some m ∧
      SlotsRight d.localTypes lVars m.nlocals Vmstate.localAddr (·.currentFrame + 6) ∧
      m.nargs = bytesOf d.argTypes ∧
      ∀ (k : Nat) t, d.argTypes[k]? = some t → lVars.lookup k = some (slotOffset d.argTypes k, t)

/-- Every variable begins where a signed byte reaches. -/
def SlotsFit (decs : List Declaration) : Prop :=
  ∀ ts, ts = globalTypes decs ∨ (∃ d ∈ methodDecs decs, ts = d.localTypes) →
    ∀ i < ts.length, slotOffset ts i < 128

/-! ## The allocation -/

/-- The two ways to address reach a slot exactly below 128. -/
theorem localAddr_slotByte_iff {a : Nat} (h : a < 256) (vm : Vmstate) :
    vm.localAddr (slotByte a) = vm.currentFrame + 6 + a ↔ a < 128 := by
  rw [Vmstate.localAddr, slotByte, BitVec.toInt_eq_toNat_cond, BitVec.toNat_ofNat]
  split <;> omega

theorem globalAddr_slotByte_iff {a : Nat} (h : a < 256) (vm : Vmstate) :
    vm.globalAddr (slotByte a) = vm.stack + a ↔ a < 128 := by
  rw [Vmstate.globalAddr, slotByte, BitVec.toInt_eq_toNat_cond, BitVec.toNat_ofNat]
  split <;> omega

/-- The slots that the compiler gives to numbered variables. -/
theorem allocateVarSlots_eq {vars : List TVariable} {slots : VarAllocation} {n : Word8}
    (hnum : NumberedVars vars) (h : allocateVarSlots vars = .ok (slots, n)) (i : Nat) :
    slots.lookup i = (varTypes vars)[i]?.map fun t => (slotOffset (varTypes vars) i % 256, t) := by
  have hids : vars.map (·.id) = List.range vars.length := by
    refine List.ext_getElem? fun i => ?_
    rw [List.getElem?_map]
    cases hv : vars[i]? with
    | none => rw [List.getElem?_eq_none (by simpa using hv)]; rfl
    | some v =>
      rw [List.getElem?_range (List.getElem?_eq_some_iff.mp hv).1]
      exact congrArg some (hnum i v hv)
  obtain ⟨hslots, hother⟩ := allocateVarSlots_lookup h (hids ▸ List.nodup_range)
  rw [varTypes, List.getElem?_map]
  cases hv : vars[i]? with
  | none =>
    rw [hother i (by rw [hids, List.mem_range]; simpa using hv)]
    rfl
  | some v =>
    have hslot := hslots i v hv
    rw [hnum i v hv] at hslot
    rw [hslot, Option.map_some, Option.map_some]
    simp [slotOffset]

/-- The slots are right exactly if every variable begins where the machine's address reaches. -/
theorem slotsRight_iff {slots : VarAllocation} {addr : Vmstate → VByte → Nat} {base : Vmstate → Nat}
    (haddr : ∀ a < 256, ∀ vm, addr vm (slotByte a) = base vm + a ↔ a < 128) (vm : Vmstate)
    (h : ∀ i, slots.lookup i = ts[i]?.map fun t => (slotOffset ts i % 256, t)) :
    SlotsRight ts slots (bytesOf ts % 256) addr base ↔ ∀ i < ts.length, slotOffset ts i < 128 := by
  constructor
  · intro hr i hi
    have hslot := hr.slot i _ (List.getElem?_eq_getElem hi)
    have hhere := h i
    rw [hslot, List.getElem?_eq_getElem hi, Option.map_some] at hhere
    have hmod : slotOffset ts i = slotOffset ts i % 256 := (Prod.mk.inj (Option.some.inj hhere)).1
    exact (haddr _ (by omega) vm).mp (hr.operand i _ _ hslot vm)
  · intro hf
    have hslot : ∀ (i : Nat) t, ts[i]? = some t → slots.lookup i = some (slotOffset ts i, t) := by
      intro i t ht
      have hi := hf i (List.getElem?_eq_some_iff.mp ht).1
      rw [h i, ht, Option.map_some, Nat.mod_eq_of_lt (by omega)]
    have hback : ∀ i a t, slots.lookup i = some (a, t) → ts[i]? = some t ∧ a = slotOffset ts i := by
      intro i a t hi
      cases ht : ts[i]? with
      | none =>
        rw [h i, ht] at hi
        exact (nomatch hi)
      | some u =>
        rw [hslot i u ht] at hi
        obtain ⟨rfl, rfl⟩ := Prod.mk.inj (Option.some.inj hi)
        exact ⟨rfl, rfl⟩
    refine ⟨hslot, fun i hi => by rw [h i, List.getElem?_eq_none hi]; rfl, ?_, ?_, ?_, ?_⟩
    · intro i j a b t u hne hi hj
      obtain ⟨ht, rfl⟩ := hback i a t hi
      obtain ⟨hu, rfl⟩ := hback j b u hj
      rw [← slotOffset_succ ht, ← slotOffset_succ hu]
      rcases Nat.lt_or_gt_of_ne hne with hlt | hlt
      · exact .inl (slotOffset_mono hlt)
      · exact .inr (slotOffset_mono hlt)
    · intro x
      constructor
      · intro hx
        obtain ⟨i, t, ht, hle, hlt⟩ := exists_slot hx
        exact ⟨i, _, t, hslot i t ht, hle, hlt⟩
      · rintro ⟨i, a, t, hi, -, hlt⟩
        obtain ⟨ht, rfl⟩ := hback i a t hi
        rw [← slotOffset_succ ht] at hlt
        rw [← slotOffset_length]
        exact hlt.trans_le (slotOffset_mono (List.getElem?_eq_some_iff.mp ht).1)
    · -- the last variable begins below 128, so the whole fits a byte
      refine Nat.mod_eq_of_lt ?_
      rw [← slotOffset_length]
      cases hlen : ts.length with
      | zero =>
        show bytesOf (ts.take 0) < 256
        rw [List.take_zero]
        decide
      | succ n =>
        have hlast : n < ts.length := by omega
        have hn := hf n hlast
        have hbytes : ∀ t : Typ, typeBytes t ≤ 2 := fun t => by cases t <;> decide
        have := hbytes ts[n]
        rw [slotOffset_succ (List.getElem?_eq_getElem hlast)]
        omega
    · intro i a t hi vm
      obtain ⟨ht, rfl⟩ := hback i a t hi
      have hlt := hf i (List.getElem?_eq_some_iff.mp ht).1
      exact (haddr _ (by omega) vm).mpr hlt

/-! ## Programs -/

variable {parse : String → Except String (List Declaration)} {source : String}
  {decs : List Declaration} {ast : TProgram} {ir : IRProgram} {bp : BytecodeProgram}
  {image : List Word8} {s : Storage} {p : Nat}

theorem Compiled.globalVars (h : Compiled parse source decs ast ir bp image) :
    NumberedVars ir.vars ∧ varTypes ir.vars = globalTypes decs := by
  obtain ⟨optast, hopt, hir⟩ := h.built
  obtain rfl := Except.ok.inj hopt
  obtain ⟨hvars, -⟩ := buildIR_ok hir
  rw [hvars]
  exact ⟨(buildTProgram_numbered h.typed).1, (buildTProgram_declared h.typed).globals⟩

theorem Compiled.localVars (h : Compiled parse source decs ast ir bp image) {i : Nat} {d : MethodDec}
    {irm : IRMethod} (hd : (methodDecs decs)[i]? = some d) (hirm : ir.methods[i]? = some irm) :
    NumberedVars irm.vars ∧ varTypes irm.vars = d.localTypes := by
  obtain ⟨m, irm', hm, hirm', hvars, -, htypes⟩ := h.tables hd
  obtain rfl := Option.some.inj (hirm.symm.trans hirm')
  rw [hvars]
  exact ⟨(buildTProgram_numbered h.typed).2 m (List.mem_of_getElem? hm), htypes⟩

/-- The machine's addresses of the globals. -/
theorem globalSlots_iff {vars : List TVariable} {slots : VarAllocation} {n : Word8}
    (hvars : NumberedVars vars ∧ varTypes vars = ts) (vm : Vmstate)
    (hn : allocateVarSlots vars = .ok (slots, n)) :
    SlotsRight ts slots (bytesOf ts % 256) Vmstate.globalAddr (·.stack) ↔
      ∀ i < ts.length, slotOffset ts i < 128 := by
  obtain ⟨hnum, rfl⟩ := hvars
  exact slotsRight_iff (fun a ha vm => globalAddr_slotByte_iff ha vm) vm (allocateVarSlots_eq hnum hn)

/-- The machine's addresses of the locals. -/
theorem localSlots_iff {vars : List TVariable} {slots : VarAllocation} {n : Word8}
    (hvars : NumberedVars vars ∧ varTypes vars = ts) (vm : Vmstate)
    (hn : allocateVarSlots vars = .ok (slots, n)) :
    SlotsRight ts slots (bytesOf ts % 256) Vmstate.localAddr (·.currentFrame + 6) ↔
      ∀ i < ts.length, slotOffset ts i < 128 := by
  obtain ⟨hnum, rfl⟩ := hvars
  exact slotsRight_iff (fun a ha vm => localAddr_slotByte_iff ha vm) vm (allocateVarSlots_eq hnum hn)

/-- The arguments are the first locals. -/
theorem argTypes_slot {d : MethodDec} {k : Nat} {t : Typ} (hk : d.argTypes[k]? = some t) :
    d.localTypes[k]? = some t ∧ slotOffset d.localTypes k = slotOffset d.argTypes k := by
  have hlt := (List.getElem?_eq_some_iff.mp hk).1
  refine ⟨by rw [MethodDec.localTypes, List.getElem?_append_left hlt, hk], ?_⟩
  rw [slotOffset, MethodDec.localTypes, List.take_append_of_le_length (Nat.le_of_lt hlt)]
  rfl

/-- **The slots of an accepted program are right exactly if every variable begins below 128.** -/
theorem slots_right_iff (h : Compiled parse source decs ast ir bp image) (hs : s.Holds p image) :
    ProgramSlots decs ir s p ↔ SlotsFit decs := by
  obtain ⟨hnglobals, hbase, -⟩ := binaryProgram_reads h.binary hs
  rw [h.nGlobals, BitVec.toNat_ofNat] at hnglobals
  -- some machine, to look at its addresses
  obtain ⟨vm, -⟩ : ∃ vm, Vmstate.init p s 0 (fun _ => 0) = some vm := by
    rw [← @init_code s p 0 (fun _ => 0)] at hbase
    obtain ⟨vm, hvm, -⟩ := Option.map_eq_some_iff.mp hbase
    exact ⟨vm, hvm⟩
  constructor
  · rintro hp ts (rfl | ⟨d, hd, rfl⟩)
    · obtain ⟨gVars, hn, -⟩ := outputProgram_ok h.output
      obtain ⟨size, hsize, hright⟩ := hp.globals gVars _ hn
      obtain rfl := Option.some.inj (hnglobals.symm.trans hsize)
      exact (globalSlots_iff h.globalVars vm hn).mp hright
    · obtain ⟨i, hi⟩ := List.mem_iff_getElem?.mp hd
      obtain ⟨m, irm, -, hirm, -⟩ := h.tables hi
      obtain ⟨gVars, lVars, g, -, ⟨n, hn⟩, -⟩ := h.outputs hirm
      obtain ⟨entry, hentry, hright, -⟩ := hp.locals i d irm hi hirm lVars n hn
      obtain ⟨bm, -, hentry', -⟩ := h.entry hs hi
      obtain rfl := Option.some.inj (hentry.symm.trans hentry')
      exact (localSlots_iff (h.localVars hi hirm) vm hn).mp hright
  · intro hf
    refine ⟨fun gVars n hn => ?_, fun i d irm hd hirm lVars n hn => ?_⟩
    · exact ⟨_, hnglobals, (globalSlots_iff h.globalVars vm hn).mpr (hf _ (.inl rfl))⟩
    · have hright := (localSlots_iff (h.localVars hd hirm) vm hn).mpr
        (hf _ (.inr ⟨d, List.mem_of_getElem? hd, rfl⟩))
      obtain ⟨bm, -, hentry, -⟩ := h.entry hs hd
      refine ⟨_, hentry, hright, ?_, fun k t hk => ?_⟩
      · have htotal : bytesOf d.localTypes < 256 := hright.size ▸ Nat.mod_lt _ (by decide)
        exact Nat.mod_eq_of_lt ((argBytes_le d).trans_lt htotal)
      · obtain ⟨hparam, hsame⟩ := argTypes_slot hk
        rw [hright.slot k t hparam, hsame]

theorem slots_right_iff_callOnce : ∃ decs ast ir bp image,
    Compiled (fun _ => .ok callOnce) "void f(short a) { }  void main() { f(7); }" decs ast ir bp image ∧
      (ProgramSlots decs ir (fun a => image[a]?) 0 ↔ SlotsFit decs) := by
  obtain ⟨ast, ir, bp, image, h⟩ := callOnce_compiled
  exact ⟨_, ast, ir, bp, image, h, slots_right_iff h (holds_image image)⟩

set_option maxRecDepth 10000 in
/-- 256 bytes of variables: the image says there are none. -/
theorem slots_wrong_manyArguments : ∃ decs ast ir bp image,
    Compiled (fun _ => .ok manyArguments) manyArgumentsText decs ast ir bp image ∧
      ¬ ProgramSlots decs ir (fun a => image[a]?) 0 := by
  obtain ⟨ast, ir, bp, image, h, hentry⟩ := manyArguments_compiled
  refine ⟨_, ast, ir, bp, image, h, fun hp => ?_⟩
  obtain ⟨m, irm, -, hirm, -⟩ := h.tables (i := 1) rfl
  obtain ⟨gVars, lVars, g, -, ⟨n, hn⟩, -⟩ := h.outputs hirm
  obtain ⟨entry, hentry', hright, -⟩ := hp.locals 1 _ irm rfl hirm lVars n hn
  obtain rfl := Option.some.inj (hentry.symm.trans hentry')
  exact absurd hright.size (by decide)

end KeyboardFirmware.Vm
