/-
  The jumps between the blocks of a method, on the machine.

  A block of the graph, its jumps included, lies where `placedCode_block` says.  From the end of its
  instructions the machine comes to the first byte of the right successor, and on the way stays
  within the block (`BlockFlow`); a block without successors ends in an instruction that leaves the
  method.
-/
import KeyboardFirmware.Vm.Run

namespace KeyboardFirmware.Vm

open Compiler

variable {s : Storage} {vm : Vmstate} {start : Nat → Nat} {base pos n : Nat} {cs : List Bytecode}

/-! ## Single jumps -/

/-- An address in a piece of code. -/
def Within (from_ length : Nat) (a : Nat) : Prop := from_ ≤ a ∧ a < from_ + length

theorem step_goto (hr : vm.Ready) (hip : vm.ip = base + pos)
    (h : CodeAt s (base + pos) (.goto :: jumpTo start pos n ++ cs)) (hpos : pos < 32768)
    (hstart : start n < 32768) (hw : Hardware) :
    vm.step hw s = { vm with ip := base + start n } := by
  have h' : CodeAt s vm.ip (.goto :: (jumpTo start pos n ++ cs)) := hip ▸ h
  rw [step_exec hr h' rfl]
  show (vm.advance 1).goto s = _
  rw [goto_jumpTo h.2 (by show vm.ip + 1 = _; rw [hip]) hpos hstart]
  rfl

theorem step_cond (hr : vm.Ready) (c : CondOp) (hip : vm.ip = base + pos)
    (h : CodeAt s (base + pos) (.cond c :: jumpTo start pos n ++ cs)) (hpos : pos < 32768)
    (hstart : start n < 32768) (hw : Hardware) :
    vm.step hw s = { vm.drop 1 with
      ip := if vmIfCheck c vm.topByte then base + start n else base + pos + 3 } := by
  have h' : CodeAt s vm.ip (.cond c :: (jumpTo start pos n ++ cs)) := hip ▸ h
  rw [step_exec hr h' rfl]
  show (if vmIfCheck c vm.topByte then ((vm.advance 1).drop 1).goto s else _) = _
  split
  · rw [goto_jumpTo h.2 (by show vm.ip + 1 = _; rw [hip]) hpos hstart]
    rfl
  · show { vm.drop 1 with ip := vm.ip + 1 + 2 } = { vm.drop 1 with ip := base + pos + 3 }
    rw [hip]

/-- The default edge, by a jump or by falling through. -/
theorem passes_default (hr : vm.Ready) {next : List Nat}
    (h : CodeAt s (base + pos) (linkCode start next pos [(.default, n)]))
    (hnext : ∀ d, next.head? = some d →
      start d = pos + (linkCode start next pos [(.default, n)]).length)
    (hip : vm.ip = base + pos) (hpos : pos < 32768) (hstart : start n < 32768) :
    Passes s (Within (base + pos) (linkCode start next pos [(.default, n)]).length) vm
      { vm with ip := base + start n } := by
  by_cases hd : next.head? = some n
  · have hhere : start n = pos := by simpa [linkCode, hd] using hnext n hd
    rw [hhere, ← hip]
    exact .refl _
  · have hlink : linkCode start next pos [(.default, n)] = .goto :: jumpTo start pos n ++ [] := by
      simp [linkCode, hd]
    rw [hlink] at h ⊢
    refine .one ?_ (step_goto hr hip h hpos hstart)
    simp [Within, hip]

theorem Vmstate.Ready.of_drop (hr : vm.Ready) (k a : Nat) :
    Vmstate.Ready { vm.drop k with ip := a } :=
  ⟨hr.running, (Nat.sub_le _ _).trans hr.room⟩

/-- A conditional edge before the default edge. -/
theorem passes_conditional (hr : vm.Ready) (c : CondOp) {i d : Nat} {next : List Nat}
    (h : CodeAt s (base + pos) (linkCode start next pos [(.conditional c, i), (.default, d)]))
    (hnext : ∀ d', next.head? = some d' →
      start d' = pos + (linkCode start next pos [(.conditional c, i), (.default, d)]).length)
    (hip : vm.ip = base + pos) (hpos : pos + 3 < 32768) (hi : start i < 32768)
    (hd : start d < 32768) :
    Passes s (Within (base + pos)
        (linkCode start next pos [(.conditional c, i), (.default, d)]).length) vm
      { vm.drop 1 with ip := base + start (if vmIfCheck c vm.topByte then i else d) } := by
  have hlink : linkCode start next pos [(.conditional c, i), (.default, d)] =
      .cond c :: jumpTo start pos i ++ linkCode start next (pos + 3) [(.default, d)] := rfl
  have hlen : (linkCode start next pos [(.conditional c, i), (.default, d)]).length =
      3 + (linkCode start next (pos + 3) [(.default, d)]).length := by
    rw [hlink]
    simp only [jumpTo, List.cons_append, List.nil_append, List.length_cons]
    omega
  have hhere : Within (base + pos)
      (linkCode start next pos [(.conditional c, i), (.default, d)]).length vm.ip := by
    rw [hlen, hip]
    exact ⟨Nat.le_refl _, by omega⟩
  rw [hlink] at h
  have hstep := step_cond hr c hip h (by omega) hi
  cases htest : vmIfCheck c vm.topByte with
  | true =>
    simp only [htest, if_true] at hstep ⊢
    exact .one hhere hstep
  | false =>
    simp only [htest, Bool.false_eq_true, if_false] at hstep ⊢
    refine .step hhere hstep ?_
    have hrest : CodeAt s (base + (pos + 3)) (linkCode start next (pos + 3) [(.default, d)]) :=
      (codeAt_append.mp h).2
    refine Passes.mono (passes_default (hr.of_drop 1 _) hrest (fun d' hd' => ?_) rfl hpos hd) ?_
    · rw [hnext d' hd', hlen, ← Nat.add_assoc]
    · intro a ha
      rw [hlen]
      exact ⟨by have := ha.1; omega, by have := ha.2; omega⟩

/-! ## Leaving a method -/

/-- A return stops the machine or goes on where the frame says. -/
theorem step_ret (hr : vm.Ready) (t : Typ) (h : CodeAt s vm.ip (.ret t :: cs)) (hw : Hardware) :
    (vm.step hw s).state = .stopped ∨ (vm.step hw s).ip = vm.pointerAt vm.currentFrame := by
  rw [step_exec hr h rfl]
  show ((vm.advance 1).ret t).state = _ ∨ ((vm.advance 1).ret t).ip = _
  unfold Vmstate.ret
  split
  · exact .inl rfl
  · right
    cases t <;> rfl

theorem step_vmexit (hr : vm.Ready) (h : CodeAt s vm.ip (.vmexit :: cs)) (hw : Hardware) :
    (vm.step hw s).state = .stopped := by
  rw [step_exec hr h rfl]
  rfl

/-- A block that is not without a return ends in the code of a return or an exit. -/
theorem instrsCode_leaves {gVars lVars : VarAllocation} {is : List IRInstruction}
    {code : List Bytecode} (hret : noReturnBlock is = false)
    (hcode : instrsCode gVars lVars is = .ok code) :
    ∃ init, code = init ++ [.vmexit] ∨ ∃ t, code = init ++ [.ret t] := by
  cases hlast : is.getLast? with
  | none => simp [noReturnBlock, hlast] at hret
  | some i =>
    obtain ⟨is', rfl⟩ := List.getLast?_eq_some_iff.mp hlast
    obtain ⟨c1, c2, -, h2, rfl⟩ := instrsCode_append.mp hcode
    obtain ⟨c, c', hc, hnil, rfl⟩ := instrsCode_cons.mp h2
    cases hnil
    refine ⟨c1, ?_⟩
    cases i <;> simp only [noReturnBlock, hlast] at hret
    case «return» t =>
      cases hc
      exact .inr ⟨t, by simp⟩
    case exit =>
      cases hc
      exact .inl (by simp)
    all_goals cases hret

/-! ## A block with its jumps -/

/-- From the end of its instructions a block hands over as its edges say: `len` bytes from
    `start n` are the block with its jumps. -/
structure BlockFlow (start : Nat → Nat) (s : Storage) (base n : Nat) (b : IRNode Bytecode)
    (len : Nat) : Prop where
  shape : EdgeShape b.edges
  leave : b.edges = [] → ∃ init last, b.instrs = init ++ [last] ∧ ∀ vm : Vmstate, vm.Ready →
    vm.ip = base + start n + init.length → ∀ hw,
      (vm.step hw s).state = .stopped ∨ (vm.step hw s).ip = vm.pointerAt vm.currentFrame
  default : ∀ d, b.edges = [(.default, d)] → ∀ vm : Vmstate, vm.Ready →
    vm.ip = base + start n + b.instrs.length →
      Passes s (Within (base + start n) len) vm { vm with ip := base + start d }
  conditional : ∀ c i d, b.edges = [(.conditional c, i), (.default, d)] → ∀ vm : Vmstate, vm.Ready →
    vm.ip = base + start n + b.instrs.length →
      Passes s (Within (base + start n) len) vm
        { vm.drop 1 with ip := base + start (if vmIfCheck c vm.topByte then i else d) }

variable {g : IRGraph Bytecode} {b : IRNode Bytecode}

theorem blockStart_zero (hg : g.WellFormed) : blockStart g 0 = 0 := by
  obtain ⟨-, hhead, -⟩ := orderBlocks_spec hg
  unfold blockStart
  cases horder : orderBlocks g with
  | nil => simp [horder] at hhead
  | cons m rest =>
    cases (by simpa [horder] using hhead : m = 0)
    simp [startAt]

/-- Where a block that can run lies in the code of its method: no other block starts within it. -/
theorem placedCode_reachable (hg : g.WellFormed) (hn : g.Reachable n) (hb : g.node n = some b) :
    ∃ before next after, placedCode g (blockStart g) (orderBlocks g) 0 =
        before ++ blockCode (blockStart g) next (blockStart g n) b ++ after ∧
      before.length = blockStart g n ∧
      (∀ d, next.head? = some d →
        blockStart g d = blockStart g n + (blockCode (blockStart g) next (blockStart g n) b).length) ∧
      ∀ k, g.Reachable k → blockStart g k ≤ blockStart g n ∨
        blockStart g n + (blockCode (blockStart g) next (blockStart g n) b).length ≤ blockStart g k := by
  obtain ⟨hnodup, -, hmem⟩ := orderBlocks_spec hg
  obtain ⟨before, next, after, hcode, hlen, hnext, hapart⟩ := placedCode_block (orderBlocks g) 0 hnodup
    (fun m hm => hg.node_of_reachable ((hmem m).mp hm)) n ((hmem n).mpr hn) b hb
  refine ⟨before, next, after, hcode, by rwa [Nat.zero_add] at hlen, fun d hd => ?_, fun k hk => ?_⟩
  · rw [blockCode_length]
    exact (hnext d hd).2
  · rw [blockCode_length]
    exact hapart k ((hmem k).mpr hk)

/-- A block starts within the code. -/
theorem blockStart_le (hg : g.WellFormed) (hn : g.Reachable n) :
    blockStart g n ≤ (placedCode g (blockStart g) (orderBlocks g) 0).length := by
  obtain ⟨b, hb⟩ := hg.node_of_reachable hn
  obtain ⟨before, next, after, hcode, hlen, -⟩ := placedCode_reachable hg hn hb
  simp [hcode, hlen]

theorem blockFlow (hg : g.WellFormed) (hn : g.Reachable n) (hb : g.node n = some b)
    (hleave : b.edges = [] → ∃ init, b.instrs = init ++ [.vmexit] ∨ ∃ t, b.instrs = init ++ [.ret t])
    (hcode : CodeAt s base (placedCode g (blockStart g) (orderBlocks g) 0))
    (hsmall : (placedCode g (blockStart g) (orderBlocks g) 0).length < 32768) :
    ∃ before links after,
      placedCode g (blockStart g) (orderBlocks g) 0 = before ++ (b.instrs ++ links) ++ after ∧
      before.length = blockStart g n ∧
      BlockFlow (blockStart g) s base n b (b.instrs ++ links).length := by
  obtain ⟨before, next, after, heq, hlen, hnext, -⟩ := placedCode_reachable hg hn hb
  have hshape := hg.shape n b hb
  have htarget : ∀ e ∈ b.edges, blockStart g e.2 < 32768 :=
    fun e he => (blockStart_le hg (hn.edge hb he)).trans_lt hsmall
  rw [heq, codeAt_append, codeAt_append, hlen] at hcode
  obtain ⟨⟨-, hblock⟩, -⟩ := hcode
  rw [blockCode, lsucSort_of_shape hshape] at heq hnext hblock
  obtain ⟨hinstrs, hlinks⟩ := codeAt_append.mp hblock
  rw [heq] at hsmall
  simp only [List.length_append, hlen] at hsmall
  have hwithin : ∀ a, Within (base + (blockStart g n + b.instrs.length))
      (linkCode (blockStart g) next (blockStart g n + b.instrs.length) b.edges).length a →
      Within (base + blockStart g n)
        (b.instrs ++ linkCode (blockStart g) next (blockStart g n + b.instrs.length) b.edges).length a := by
    rintro a ⟨h1, h2⟩
    rw [List.length_append]
    exact ⟨by omega, by omega⟩
  have hnext' : ∀ d, next.head? = some d → blockStart g d = blockStart g n + b.instrs.length +
      (linkCode (blockStart g) next (blockStart g n + b.instrs.length) b.edges).length := by
    intro d hd
    rw [hnext d hd, List.length_append, Nat.add_assoc]
  rw [Nat.add_assoc] at hlinks
  refine ⟨before, _, after, heq, hlen, hshape, ?_, ?_, ?_⟩
  · intro hnone
    obtain ⟨init, hlast⟩ := hleave hnone
    rcases hlast with hlast | ⟨t, hlast⟩
    all_goals
      rw [hlast, codeAt_append] at hinstrs
      refine ⟨init, _, hlast, fun vm hr hip hw => ?_⟩
      have hhere := hinstrs.2
      rw [← hip] at hhere
    · exact .inl (step_vmexit hr hhere hw)
    · exact step_ret hr t hhere hw
  · intro d hd vm hr hip
    rw [hd] at hlinks hwithin hnext' htarget ⊢
    exact (passes_default hr hlinks hnext' (by rw [hip, Nat.add_assoc]) (by omega)
      (htarget (.default, d) (by simp))).mono hwithin
  · intro c i d hd vm hr hip
    rw [hd] at hlinks hwithin hnext' htarget hsmall ⊢
    refine (passes_conditional hr c hlinks hnext' (by rw [hip, Nat.add_assoc]) ?_
      (htarget (.conditional c, i) (by simp)) (htarget (.default, d) (by simp))).mono hwithin
    have h3 : 3 ≤ (linkCode (blockStart g) next (blockStart g n + b.instrs.length)
        [(.conditional c, i), (.default, d)]).length := by
      simp [linkCode, jumpTo]
    omega

/-- **Block scheduling preserves the control-flow graph.**  The code of a method's graph is made of
    the blocks that the entry leads to, each once and the entry first; every relocation finds its
    target; and where the encoded code has less than 32768 bytes every block hands over on the
    machine as its edges say. -/
theorem scheduleBlocks_preserves_flow {m : TMethod} {irm : IRMethod} {gVars lVars : VarAllocation}
    {g : IRGraph Bytecode} (hm : buildIRMethod m = .ok irm)
    (hg : nmapM (outputBlock gVars lVars) irm.graph = .ok g) :
    ∃ code, scheduleBlocks g = .ok code ∧ code = placedCode g (blockStart g) (orderBlocks g) 0 ∧
      (orderBlocks g).Nodup ∧ (orderBlocks g).head? = some 0 ∧ blockStart g 0 = 0 ∧
      (∀ n, n ∈ orderBlocks g ↔ irm.graph.Reachable n) ∧
      ∀ (s : Storage) (base : Nat) (bytes : List Word8), code.mapM bytecodeByte = .ok bytes →
        bytes.length < 32768 → s.Holds base bytes →
        ∀ n, irm.graph.Reachable n → ∃ b before links after, g.node n = some b ∧
          code = before ++ (b.instrs ++ links) ++ after ∧ before.length = blockStart g n ∧
          BlockFlow (blockStart g) s base n b (b.instrs ++ links).length := by
  obtain ⟨st, -, -, hbuilt, hret, -⟩ := buildIRMethod_ok hm
  obtain ⟨-, hcov⟩ := nmapM_covers hbuilt.wf hg
  obtain ⟨hnodup, hhead, hmem⟩ := orderBlocks_spec hcov.wf
  have hblocks : ∀ n b, g.node n = some b → ∃ is, instrsCode gVars lVars is = .ok b.instrs ∧
      (b.edges = [] → noReturnBlock is = false) := by
    intro n b hb
    obtain ⟨b0, hb0, hout, hedges⟩ := hcov.node n b hb
    exact ⟨b0.instrs, outputBlock_eq b0.instrs ▸ hout, fun h => hret n b0 hb0 (hedges ▸ h)⟩
  have hres : ∀ n b, g.node n = some b → Resolved b.instrs := by
    intro n b hb
    obtain ⟨is, his, -⟩ := hblocks n b hb
    exact instrsCode_resolved his
  refine ⟨_, scheduleBlocks_eq hcov.wf hres, rfl, hnodup, hhead, blockStart_zero hcov.wf,
    fun n => (hmem n).trans (hcov.reachable_iff n), ?_⟩
  intro s base bytes hbytes hsmall hs n hn
  rw [length_of_mapM hbytes] at hsmall
  have hn' := (hcov.reachable_iff n).mpr hn
  obtain ⟨b, hb⟩ := hcov.wf.node_of_reachable hn'
  obtain ⟨is, his, hleave⟩ := hblocks n b hb
  obtain ⟨before, links, after, heq, hlen, hflow⟩ := blockFlow hcov.wf hn' hb
    (fun h => instrsCode_leaves (hleave h) his) (codeAt_of_holds hbytes hs) hsmall
  exact ⟨b, before, links, after, hb, heq, hlen, hflow⟩

/-- `while (checkKey(4)) break;` and its code. -/
theorem scheduleBlocks_preserves_flow_while :
    ∃ irm g code bytes, buildIRMethod ⟨0, .void, [], [], [],
        [.whileStatement (.syscall .byte .checkKey [.byteLiteral 4]) .breakStatement]⟩ = .ok irm ∧
      nmapM (outputBlock [] []) irm.graph = .ok g ∧ scheduleBlocks g = .ok code ∧
      code.mapM bytecodeByte = .ok bytes ∧
      ∃ b before links after, g.node 1 = some b ∧ code = before ++ (b.instrs ++ links) ++ after ∧
        BlockFlow (blockStart g) (fun a => bytes[a]?) 0 1 b (b.instrs ++ links).length := by
  have hrun : ∃ irm g code bytes, buildIRMethod ⟨0, .void, [], [], [],
        [.whileStatement (.syscall .byte .checkKey [.byteLiteral 4]) .breakStatement]⟩ = .ok irm ∧
      nmapM (outputBlock [] []) irm.graph = .ok g ∧ scheduleBlocks g = .ok code ∧
      code.mapM bytecodeByte = .ok bytes ∧ bytes.length = 10 ∧
      irm.graph.out 0 = [(.default, 1)] := ⟨_, _, _, _, rfl, rfl, rfl, rfl, rfl, rfl⟩
  obtain ⟨irm, g, code, bytes, hm, hg, hcode, hbytes, hlen, hout⟩ := hrun
  obtain ⟨code', hcode', -, -, -, -, -, hflow⟩ := scheduleBlocks_preserves_flow hm hg
  cases hcode.symm.trans hcode'
  have hreach : irm.graph.Reachable 1 := .tail .refl ⟨(.default, 1), by rw [hout]; simp, rfl⟩
  obtain ⟨b, before, links, after, hb, heq, -, hblock⟩ := hflow (fun a => bytes[a]?) 0 bytes hbytes
    (by omega) (fun i b h => by simpa using h) 1 hreach
  exact ⟨irm, g, code, bytes, hm, hg, hcode, hbytes, b, before, links, after, hb, heq, hblock⟩

end KeyboardFirmware.Vm
