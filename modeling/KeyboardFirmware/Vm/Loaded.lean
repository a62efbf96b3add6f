/-
  The code of a method in the storage of the machine.

  `Loaded` is what the compiler makes of one method, with the bytes in storage from `base` on.  Every
  place of the method's graph has an address there (`addr`): the instructions that stand at a place lie
  at its address (`Loaded.instrsAt`), and from the end of a block the machine hands over to one of its
  successors (`Loaded.default`, `Loaded.conditional`).
-/
import KeyboardFirmware.Vm.Straight

namespace KeyboardFirmware.Vm

open Compiler

/-- A compiled method, in storage. -/
structure Loaded (m : TMethod) (irm : IRMethod) (gVars lVars : VarAllocation) (g : IRGraph Bytecode)
    (s : Storage) (base : Nat) : Prop where
  built : buildIRMethod m = .ok irm
  output : nmapM (outputBlock gVars lVars) irm.graph = .ok g
  stored : ∃ code bytes, scheduleBlocks g = .ok code ∧ code.mapM bytecodeByte = .ok bytes ∧
    bytes.length < 32768 ∧ s.Holds base bytes

/-- The bytes of some instructions. -/
def codeLength (gVars lVars : VarAllocation) (is : List IRInstruction) : Nat :=
  match instrsCode gVars lVars is with
  | .ok c => c.length
  | .error _ => 0

/-- The address of a place of the graph. -/
def addr (gVars lVars : VarAllocation) (G : IRGraph IRInstruction) (g : IRGraph Bytecode) (base : Nat)
    (p : Pos) : Nat :=
  base + blockStart g p.1 +
    codeLength gVars lVars ((((G.node p.1).map (·.instrs)).getD []).take p.2)

variable {m : TMethod} {irm : IRMethod} {gVars lVars : VarAllocation} {g : IRGraph Bytecode}
  {s : Storage} {base : Nat}

theorem codeLength_of_ok {is : List IRInstruction} {c : List Bytecode}
    (h : instrsCode gVars lVars is = .ok c) : codeLength gVars lVars is = c.length := by
  rw [codeLength, h]

theorem addr_start (G : IRGraph IRInstruction) (n : Nat) :
    addr gVars lVars G g base (n, 0) = base + blockStart g n := by
  rw [addr, List.take_zero, codeLength_of_ok rfl]
  rfl

theorem addr_of_node {G : IRGraph IRInstruction} {n i : Nat} {b : IRNode IRInstruction}
    (hb : G.node n = some b) {c : List Bytecode}
    (hc : instrsCode gVars lVars (b.instrs.take i) = .ok c) :
    addr gVars lVars G g base (n, i) = base + blockStart g n + c.length := by
  rw [addr, hb, Option.map_some, Option.getD_some, codeLength_of_ok hc]

/-- A block lies in storage: its instructions `c`, and its jumps `links`.  No block that can run starts
    within it. -/
structure Placed (G : IRGraph IRInstruction) (g : IRGraph Bytecode) (s : Storage) (base n : Nat)
    (b : IRNode IRInstruction) (c links : List Bytecode) : Prop where
  shape : EdgeShape b.edges
  code : CodeAt s (base + blockStart g n) (c ++ links)
  jumps : ∃ next, links = linkCode (blockStart g) next (blockStart g n + c.length) b.edges ∧
    ∀ d, next.head? = some d → blockStart g d = blockStart g n + c.length + links.length
  apart : ∀ k, G.Reachable k →
    blockStart g k ≤ blockStart g n ∨ blockStart g n + c.length + links.length ≤ blockStart g k
  small : blockStart g n + c.length + links.length < 32768
  target : ∀ e ∈ b.edges, blockStart g e.2 < 32768

/-- Through the code of block `n`, up to its end, the machine goes to the start of block `d`. -/
structure HandsOver (G : IRGraph IRInstruction) (g : IRGraph Bytecode) (s : Storage)
    (base n d : Nat) (vm vm' : Vmstate) : Prop where
  passes : ∃ len, vm.ip ≤ base + blockStart g n + len ∧
    (∀ k, G.Reachable k → blockStart g k ≤ blockStart g n ∨ blockStart g n + len ≤ blockStart g k) ∧
    Passes s (fun a => vm.ip ≤ a ∧ a < base + blockStart g n + len) vm vm'
  ip : vm'.ip = base + blockStart g d

/-- Code of the block that runs before the machine hands over. -/
theorem RunsThrough.handsOver {G : IRGraph IRInstruction} {n d k : Nat} {vm vm1 vm' : Vmstate}
    (hrun : RunsThrough s k vm vm1) (h : HandsOver G g s base n d vm1 vm') :
    HandsOver G g s base n d vm vm' := by
  obtain ⟨hpasses, hip⟩ := hrun
  obtain ⟨⟨len, hlen, hapart, hpasses'⟩, htarget⟩ := h
  refine ⟨⟨len, by omega, hapart, (hpasses.mono fun a ha => ?_).trans (hpasses'.mono fun a ha => ?_)⟩,
    htarget⟩
  · exact ⟨ha.1, by have := ha.2; omega⟩
  · exact ⟨by have := ha.1; omega, ha.2⟩

/-- The jumps of a block hand over. -/
theorem Placed.handsOver {G : IRGraph IRInstruction} {n d : Nat} {b : IRNode IRInstruction}
    {c links : List Bytecode} (h : Placed G g s base n b c links) {vm vm' : Vmstate}
    (hip : vm.ip = base + (blockStart g n + c.length))
    (hpasses : Passes s (Within vm.ip links.length) vm vm') (hd : vm'.ip = base + blockStart g d) :
    HandsOver G g s base n d vm vm' := by
  refine ⟨⟨c.length + links.length, by omega, fun k hk => ?_, hpasses.mono fun a ha => ?_⟩, hd⟩
  · rw [← Nat.add_assoc]
    exact h.apart k hk
  · exact ⟨ha.1, by have := ha.2; omega⟩

/-- The code of a method, of any length, in storage. -/
structure Scheduled (m : TMethod) (irm : IRMethod) (gVars lVars : VarAllocation) (g : IRGraph Bytecode)
    (s : Storage) (base : Nat) (code : List Bytecode) : Prop where
  built : buildIRMethod m = .ok irm
  output : nmapM (outputBlock gVars lVars) irm.graph = .ok g
  scheduled : scheduleBlocks g = .ok code
  stored : CodeAt s base code

namespace Scheduled

variable {code : List Bytecode}

/-- A block that can run lies in storage; in short code its jumps arrive. -/
theorem block (h : Scheduled m irm gVars lVars g s base code) {n : Nat} (hn : irm.graph.Reachable n) :
    ∃ b c links, irm.graph.node n = some b ∧ instrsCode gVars lVars b.instrs = .ok c ∧
      CodeAt s (base + blockStart g n) (c ++ links) ∧
      (code.length < 32768 → Placed irm.graph g s base n b c links) := by
  have hcode := h.scheduled
  have hall := h.stored
  obtain ⟨st, -, -, hbuilt, -, -⟩ := buildIRMethod_ok h.built
  obtain ⟨-, hcov⟩ := nmapM_covers hbuilt.wf h.output
  have hres : ∀ n b, g.node n = some b → Resolved b.instrs := by
    intro n b hb
    obtain ⟨b0, -, hout, -⟩ := hcov.node n b hb
    exact instrsCode_resolved (outputBlock_eq b0.instrs ▸ hout)
  obtain rfl := Except.ok.inj (hcode.symm.trans (scheduleBlocks_eq hcov.wf hres))
  have hreach : ∀ {k}, irm.graph.Reachable k → g.Reachable k := fun hk => (hcov.reachable_iff _).mpr hk
  obtain ⟨⟨c, edges⟩, hb⟩ := hcov.wf.node_of_reachable (hreach hn)
  obtain ⟨b, hb0, hout, hedges⟩ := hcov.node n _ hb
  obtain rfl : edges = b.edges := hedges
  rw [outputBlock_eq] at hout
  obtain ⟨before, next, after, heq, hlen, hnext, hapart⟩ :=
    placedCode_reachable hcov.wf (hreach hn) hb
  have hshape : EdgeShape b.edges := hcov.wf.shape n _ hb
  rw [heq, codeAt_append, codeAt_append, hlen] at hall
  simp only [blockCode, lsucSort_of_shape hshape, List.length_append, ← Nat.add_assoc] at heq hnext hapart hall
  refine ⟨b, c, _, hb0, hout, hall.1.2, fun hsmall => ?_⟩
  have htarget : ∀ e ∈ b.edges, blockStart g e.2 < 32768 :=
    fun e he => (blockStart_le hcov.wf ((hreach hn).edge hb he)).trans_lt hsmall
  rw [heq] at hsmall
  simp only [List.length_append, hlen] at hsmall
  exact ⟨hshape, hall.1.2, ⟨next, rfl, hnext⟩, fun k hk => hapart k (hreach hk), by omega, htarget⟩

/-- Instructions lie at the address of their place. -/
theorem instrsAt (h : Scheduled m irm gVars lVars g s base code) {p q : Pos} {is : List IRInstruction}
    (hp : irm.graph.Reachable p.1) (hin : InstrsAt irm.graph is p q) :
    ∃ c, instrsCode gVars lVars is = .ok c ∧ CodeAt s (addr gVars lVars irm.graph g base p) c ∧
      addr gVars lVars irm.graph g base q = addr gVars lVars irm.graph g base p + c.length := by
  obtain ⟨n, i⟩ := p
  obtain ⟨rfl, b', hb', hpre⟩ := hin
  obtain ⟨b, c, links, hb, hc, hat, -⟩ := h.block hp
  obtain rfl := Option.some.inj (hb.symm.trans hb')
  obtain ⟨rest, hrest⟩ := hpre
  -- the block is what stands before, the instructions, and the rest
  have hsplit : b.instrs = b.instrs.take i ++ (is ++ rest) := by
    rw [hrest, List.take_append_drop]
  rw [hsplit] at hc
  obtain ⟨c1, c23, h1, h23, rfl⟩ := instrsCode_append.mp hc
  obtain ⟨c2, c3, h2, h3, rfl⟩ := instrsCode_append.mp h23
  rw [codeAt_append, codeAt_append, codeAt_append] at hat
  have hlong : b.instrs.take (i + is.length) = b.instrs.take i ++ is := by
    rw [List.take_add, ← hrest, List.take_left]
  refine ⟨c2, h2, ?_, ?_⟩
  · rw [addr_of_node hb h1]
    exact hat.1.2.1
  · have h12 : instrsCode gVars lVars (b.instrs.take (i + is.length)) = .ok (c1 ++ c2) := by
      rw [hlong]
      exact instrsCode_append.mpr ⟨c1, c2, h1, h2, rfl⟩
    have hq : addr gVars lVars irm.graph g base (n, i + is.length) =
        base + blockStart g n + (c1 ++ c2).length := addr_of_node hb h12
    rw [hq, addr_of_node hb h1, List.length_append, ← Nat.add_assoc]

end Scheduled

namespace Loaded

/-- What is loaded has its code in storage. -/
theorem toScheduled (h : Loaded m irm gVars lVars g s base) :
    ∃ code, code.length < 32768 ∧ Scheduled m irm gVars lVars g s base code := by
  obtain ⟨code, bytes, hcode, hbytes, hsmall, hs⟩ := h.stored
  exact ⟨code, length_of_mapM hbytes ▸ hsmall, h.built, h.output, hcode, codeAt_of_holds hbytes hs⟩

/-- A block that can run lies in storage. -/
theorem block (h : Loaded m irm gVars lVars g s base) {n : Nat} (hn : irm.graph.Reachable n) :
    ∃ b c links, irm.graph.node n = some b ∧ instrsCode gVars lVars b.instrs = .ok c ∧
      Placed irm.graph g s base n b c links := by
  obtain ⟨code, hsmall, hscheduled⟩ := h.toScheduled
  obtain ⟨b, c, links, hb, hc, -, hplaced⟩ := hscheduled.block hn
  exact ⟨b, c, links, hb, hc, hplaced hsmall⟩

/-- Instructions lie at the address of their place. -/
theorem instrsAt (h : Loaded m irm gVars lVars g s base) {p q : Pos} {is : List IRInstruction}
    (hp : irm.graph.Reachable p.1) (hin : InstrsAt irm.graph is p q) :
    ∃ c, instrsCode gVars lVars is = .ok c ∧ CodeAt s (addr gVars lVars irm.graph g base p) c ∧
      addr gVars lVars irm.graph g base q = addr gVars lVars irm.graph g base p + c.length := by
  obtain ⟨code, -, hscheduled⟩ := h.toScheduled
  exact hscheduled.instrsAt hp hin

/-- A machine at the end of a block stands before its jumps. -/
theorem endsAt (h : Loaded m irm gVars lVars g s base) {p : Pos} {es : List (IREdge × Nat)}
    (hp : irm.graph.Reachable p.1) (hends : EndsAt irm.graph p es) :
    ∃ b c links, b.edges = es ∧ Placed irm.graph g s base p.1 b c links ∧
      addr gVars lVars irm.graph g base p = base + (blockStart g p.1 + c.length) := by
  obtain ⟨n, k⟩ := p
  obtain ⟨b', hb', hlen, hedges⟩ := hends
  obtain ⟨b, c, links, hb, hc, hplaced⟩ := h.block hp
  obtain rfl := Option.some.inj (hb.symm.trans hb')
  have hwhole : instrsCode gVars lVars (b.instrs.take k) = .ok c := by
    obtain rfl : b.instrs.length = k := hlen
    rwa [List.take_length]
  exact ⟨b, c, links, hedges, hplaced, by rw [addr_of_node hb hwhole, Nat.add_assoc]⟩

/-- The end of a block with two edges: a conditional jump on the byte on top. -/
theorem conditional (h : Loaded m irm gVars lVars g s base) {p : Pos} {op : CondOp} {i d : Nat}
    (hp : irm.graph.Reachable p.1)
    (hends : EndsAt irm.graph p [(.conditional op, i), (.default, d)]) {vm : Vmstate} (hr : vm.Ready)
    (hip : vm.ip = addr gVars lVars irm.graph g base p) :
    HandsOver irm.graph g s base p.1 (if vmIfCheck op vm.topByte then i else d) vm
      { vm.drop 1 with
        ip := base + blockStart g (if vmIfCheck op vm.topByte then i else d) } := by
  obtain ⟨⟨instrs, edges⟩, c, links, rfl, hplaced, haddr⟩ := h.endsAt hp hends
  obtain ⟨next, rfl, hnext⟩ := hplaced.jumps
  rw [haddr] at hip
  have hlinks := (codeAt_append.mp hplaced.code).2
  rw [Nat.add_assoc] at hlinks
  have hsmall := hplaced.small
  dsimp only at hsmall
  have hthree : 3 ≤ (linkCode (blockStart g) next (blockStart g p.1 + c.length)
      [(.conditional op, i), (.default, d)]).length := by
    simp [linkCode, jumpTo]
  have hpasses := passes_conditional hr op hlinks hnext hip (by omega)
    (hplaced.target (.conditional op, i) (by simp)) (hplaced.target (.default, d) (by simp))
  rw [← hip] at hpasses
  exact hplaced.handsOver hip hpasses rfl

/-- The end of a block with one edge. -/
theorem default (h : Loaded m irm gVars lVars g s base) {p : Pos} {d : Nat}
    (hp : irm.graph.Reachable p.1) (hends : EndsAt irm.graph p [(.default, d)]) {vm : Vmstate}
    (hr : vm.Ready) (hip : vm.ip = addr gVars lVars irm.graph g base p) :
    HandsOver irm.graph g s base p.1 d vm { vm with ip := base + blockStart g d } := by
  obtain ⟨⟨instrs, edges⟩, c, links, rfl, hplaced, haddr⟩ := h.endsAt hp hends
  obtain ⟨next, rfl, hnext⟩ := hplaced.jumps
  rw [haddr] at hip
  have hlinks := (codeAt_append.mp hplaced.code).2
  rw [Nat.add_assoc] at hlinks
  have hsmall := hplaced.small
  have hpasses := passes_default hr hlinks hnext hip (by omega)
    (hplaced.target (.default, d) (by simp))
  rw [← hip] at hpasses
  exact hplaced.handsOver hip hpasses rfl

end Loaded

end KeyboardFirmware.Vm
