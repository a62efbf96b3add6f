/-
  Where the blocks of a method lie in its bytecode.

  `scheduleBlocks` lays the blocks that can run one after the other in depth-first order, each
  followed by its jumps, and then resolves the jumps.  `placedCode` is that code written out with
  every start known beforehand (`startAt`); `scheduleBlocks_eq` says that the two agree, and
  `placedCode_block` where one block lies in it.
-/
import KeyboardFirmware.Compiler.MethodGraph

namespace KeyboardFirmware.Compiler

/-! ## The code of a block -/

/-- No jump is left to be resolved. -/
def Resolved (code : List Bytecode) : Prop := ∀ c ∈ code, ∀ n, c ≠ .relocation n

theorem Resolved.append {c1 c2 : List Bytecode} (h1 : Resolved c1) (h2 : Resolved c2) :
    Resolved (c1 ++ c2) := fun c hc =>
  (List.mem_append.mp hc).elim (h1 c) (h2 c)

section

variable (gVars lVars : VarAllocation)

/-- The code of one instruction, from front to back. -/
def instrCode : IRInstruction → ThrowsError (List Bytecode)
  | .store i => do
    let (slot, t) ← varLookup lVars i
    .ok (if slot < 4 then [.storeN t slot] else [.store t, .immediateByte (BitVec.ofNat 8 slot)])
  | .load i => do
    let (slot, t) ← varLookup lVars i
    .ok (if slot < 4 then [.loadN t slot] else [.load t, .immediateByte (BitVec.ofNat 8 slot)])
  | .gload i | .gstore i => do
    let (slot, t) ← varLookup gVars i
    .ok [.gload t, .immediateByte (BitVec.ofNat 8 slot)]
  | .bconst b => .ok <|
    if BitVec.sle 0 b ∧ BitVec.slt b 4 then [.bconstN b] else [.bconst, .immediateByte b]
  | .sconst s => .ok <|
    if BitVec.sle 0 s ∧ BitVec.slt s 4 then [.sconstN s]
    else [.sconst, .immediateByte (lowByte s), .immediateByte (highByte s)]
  | .dup t => .ok [.dup t]
  | .pop t => .ok [.pop t]
  | .swap t => .ok [.swap t]
  | .arith t op => .ok [.arith op t]
  | .b2s => .ok [.b2s]
  | .s2b => .ok [.s2b]
  | .call i => .ok [.call, .immediateByte (BitVec.ofNat 8 i)]
  | .syscall op => .ok [.syscall op]
  | .return t => .ok [.ret t]
  | .exit => .ok [.vmexit]
  | .dummy _ => .ok []

/-- The code of instructions, one after the other. -/
def instrsCode : List IRInstruction → ThrowsError (List Bytecode)
  | [] => .ok []
  | i :: is => do
    let c ← instrCode gVars lVars i
    let cs ← instrsCode is
    .ok (c ++ cs)

variable {gVars lVars}

theorem outputInstruction_eq (rest : List Bytecode) (i : IRInstruction) :
    outputInstruction gVars lVars rest i =
      (instrCode gVars lVars i).map fun c => c.reverse ++ rest := by
  cases i with
  | store i | load i =>
    simp only [outputInstruction, instrCode]
    cases varLookup lVars i with
    | error e => rfl
    | ok v =>
      simp only [bind, Except.bind, Except.map]
      split <;> rfl
  | gload i | gstore i =>
    simp only [outputInstruction, instrCode]
    cases varLookup gVars i <;> rfl
  | bconst v | sconst v =>
    simp only [outputInstruction, instrCode]
    split <;> rfl
  | _ => rfl

theorem foldlM_outputInstruction (is : List IRInstruction) :
    ∀ rest, is.foldlM (outputInstruction gVars lVars) rest =
      (instrsCode gVars lVars is).map fun c => c.reverse ++ rest := by
  induction is with
  | nil => intro rest; rfl
  | cons i is ih =>
    intro rest
    simp only [List.foldlM_cons, outputInstruction_eq, ih, instrsCode]
    cases instrCode gVars lVars i with
    | error e => rfl
    | ok c =>
      cases instrsCode gVars lVars is <;> simp [bind, Except.bind, Except.map]

theorem outputBlock_eq (is : List IRInstruction) :
    outputBlock gVars lVars is = instrsCode gVars lVars is := by
  simp only [outputBlock, foldlM_outputInstruction]
  cases instrsCode gVars lVars is <;> simp [bind, Except.bind, Except.map]

theorem instrsCode_cons {i : IRInstruction} {is : List IRInstruction} {c : List Bytecode} :
    instrsCode gVars lVars (i :: is) = .ok c ↔ ∃ c1 c2,
      instrCode gVars lVars i = .ok c1 ∧ instrsCode gVars lVars is = .ok c2 ∧ c = c1 ++ c2 := by
  simp only [instrsCode, bind_eq_ok, Except.ok.injEq, exists_and_left]
  exact exists_congr fun c1 => and_congr_right' (exists_congr fun c2 => and_congr_right' eq_comm)

theorem instrsCode_append {is1 is2 : List IRInstruction} {c : List Bytecode} :
    instrsCode gVars lVars (is1 ++ is2) = .ok c ↔ ∃ c1 c2,
      instrsCode gVars lVars is1 = .ok c1 ∧ instrsCode gVars lVars is2 = .ok c2 ∧ c = c1 ++ c2 := by
  induction is1 generalizing c with
  | nil => simp [instrsCode, eq_comm]
  | cons i is1 ih =>
    simp only [List.cons_append, instrsCode_cons, ih]
    constructor
    · rintro ⟨c1, _, h1, ⟨c2, c3, h2, h3, rfl⟩, rfl⟩
      exact ⟨c1 ++ c2, c3, ⟨c1, c2, h1, h2, rfl⟩, h3, by simp⟩
    · rintro ⟨_, c3, ⟨c1, c2, h1, h2, rfl⟩, h3, rfl⟩
      exact ⟨c1, c2 ++ c3, h1, ⟨c2, c3, h2, h3, rfl⟩, by simp⟩

theorem instrCode_resolved {i : IRInstruction} {c : List Bytecode}
    (h : instrCode gVars lVars i = .ok c) : Resolved c := by
  intro b hb n
  rintro rfl
  cases i <;> simp only [instrCode, bind_eq_ok, Except.ok.injEq] at h
  case store | load =>
    obtain ⟨v, -, rfl⟩ := h
    split at hb <;> simp at hb
  case gload | gstore =>
    obtain ⟨v, -, rfl⟩ := h
    simp at hb
  case bconst | sconst =>
    subst h
    split at hb <;> simp at hb
  all_goals
    subst h
    simp at hb

theorem instrsCode_resolved {is : List IRInstruction} :
    ∀ {c : List Bytecode}, instrsCode gVars lVars is = .ok c → Resolved c := by
  induction is with
  | nil =>
    intro c h
    cases h
    exact fun _ hc => nomatch hc
  | cons i is ih =>
    intro c h
    obtain ⟨c1, c2, h1, h2, rfl⟩ := instrsCode_cons.mp h
    exact (instrCode_resolved h1).append (ih h2)

end

/-! ## The graph of codes -/

section

variable {α β : Type} {f : List α → ThrowsError (List β)}

theorem mapM_blocks {g : IRGraph α} : ∀ {ns : List Nat} {blocks : List (Nat × IRNode β)},
    (ns.mapM fun n => do
      let b ← maybeToError (.exception "fromJust") (g.node n)
      let is ← f b.instrs
      .ok (n, IRNode.mk is b.edges)) = .ok blocks →
    ∀ n, (n ∈ ns → ∃ b', blocks.lookup n = some b') ∧ ∀ b', blocks.lookup n = some b' →
      n ∈ ns ∧ ∃ b, g.node n = some b ∧ f b.instrs = .ok b'.instrs ∧ b'.edges = b.edges := by
  intro ns
  induction ns with
  | nil =>
    intro blocks h n
    cases h
    simp
  | cons m ns ih =>
    intro blocks h n
    simp only [List.mapM_cons, bind_eq_ok] at h
    obtain ⟨_, ⟨b, hb, is, his, hpair⟩, rest, hrest, h⟩ := h
    cases hpair
    cases h
    have hnode : g.node m = some b := by
      cases hm : g.node m with
      | none => rw [hm] at hb; cases hb
      | some b' => rw [hm] at hb; cases hb; rfl
    obtain ⟨ih1, ih2⟩ := ih hrest n
    by_cases hn : n = m
    · subst hn
      refine ⟨fun _ => ⟨⟨is, b.edges⟩, by simp⟩, fun b' hb' => ?_⟩
      have heq : b' = ⟨is, b.edges⟩ := by simpa [eq_comm] using hb'
      subst heq
      exact ⟨by simp, b, hnode, his, rfl⟩
    · have hlook : ((m, IRNode.mk is b.edges) :: rest).lookup n = rest.lookup n := by
        simp [List.lookup_cons, beq_eq_false_iff_ne.mpr hn]
      rw [hlook]
      refine ⟨fun h => ih1 (by simpa [hn] using h), fun b' hb' => ?_⟩
      exact ⟨List.mem_cons_of_mem _ (ih2 b' hb').1, (ih2 b' hb').2⟩

/-- `nmapM` keeps the graph and changes the blocks. -/
theorem nmapM_covers {g : IRGraph α} {g' : IRGraph β} (hg : g.WellFormed)
    (h : nmapM f g = .ok g') :
    g'.size = g.size ∧ Covers (fun b b' => f b.instrs = .ok b'.instrs) g g' := by
  simp only [nmapM, bind_eq_ok] at h
  obtain ⟨blocks, hblocks, h⟩ := h
  cases h
  have hspec := mapM_blocks hblocks
  have hfwd : ∀ n, (∃ b, g.node n = some b) → ∃ b', blocks.lookup n = some b' :=
    fun n hn => (hspec n).1 (hg.mem_nodes.mpr hn)
  refine ⟨rfl, ⟨fun n b' hb' => ?_, hfwd 0 hg.entry, fun n b' hb' => ?_, fun n b' hb' e he => ?_⟩,
    fun n b' hb' => ?_⟩
  all_goals obtain ⟨hmem, b, hb, hf, hedges⟩ := (hspec n).2 b' hb'
  · exact hg.inRange n b hb
  · rw [hedges]
    exact hg.shape n b hb
  · rw [hedges] at he
    exact hfwd e.2 (hg.target n b hb e he)
  · exact ⟨b, hb, hf, hedges⟩

end

/-! ## The order of the blocks -/

theorem lsucSort_perm (es : List (IREdge × Nat)) : (lsucSort es).Perm es :=
  List.perm_insertionSort _ es

/-- The edges of a block are in the order of its jumps. -/
theorem lsucSort_of_shape {es : List (IREdge × Nat)} (h : EdgeShape es) : lsucSort es = es := by
  rcases h with rfl | ⟨d, rfl⟩ | ⟨c, i, d, rfl⟩
  · rfl
  · rfl
  · cases c <;> rfl

/-- **The order of the blocks** has the entry first and every block that can run, once. -/
theorem orderBlocks_spec {α : Type} {g : IRGraph α} (hg : g.WellFormed) :
    (orderBlocks g).Nodup ∧ (orderBlocks g).head? = some 0 ∧
      ∀ n, n ∈ orderBlocks g ↔ g.Reachable n := by
  have hsome : ∀ n, (g.node n).isSome = true ↔ ∃ b, g.node n = some b :=
    fun n => Option.isSome_iff_exists
  have hedge : ∀ a b, Lib.Leads (fun n => (lsucSort (g.out n)).map (·.2)) a b ↔ g.Edge a b := by
    intro a b
    show b ∈ (lsucSort (g.out a)).map (·.2) ↔ ∃ e ∈ g.out a, e.2 = b
    rw [List.mem_map]
    exact exists_congr fun e => and_congr_left' (lsucSort_perm _).mem_iff
  have hreach : ∀ n, Relation.ReflTransGen
      (Lib.Leads (fun n => (lsucSort (g.out n)).map (·.2))) 0 n ↔ g.Reachable n := by
    intro n
    rw [show Lib.Leads _ = g.Edge from funext fun a => funext fun b => propext (hedge a b)]
    exact Iff.rfl
  have hentry := (hsome 0).mpr hg.entry
  have hpos : 0 < g.size := by
    obtain ⟨b, hb⟩ := hg.entry
    exact hg.inRange 0 b hb
  refine ⟨(Lib.depthFirst_nodup _ _ _ _ _).1, Lib.depthFirst_head hpos hentry, fun n => ?_⟩
  rw [← hreach]
  refine Lib.mem_depthFirst_iff (fun m hm => ?_) List.length_range.le hentry ?_ n
  · obtain ⟨b, hb⟩ := hg.node_of_reachable ((hreach m).mp hm)
    exact List.mem_range.mpr (hg.inRange m b hb)
  · intro v hv w hw
    obtain ⟨bv, b, -, -, hb⟩ := hg.edge ((hedge v w).mp hw)
    exact (hsome w).mpr ⟨b, hb⟩

/-! ## Starts and jumps -/

/-- The operand of a jump from `pos` to the block `n`. -/
def jumpTo (start : Nat → Nat) (pos n : Nat) : List Bytecode :=
  [.immediateByte (lowByte (BitVec.ofInt 16 (start n - pos))),
    .immediateByte (highByte (BitVec.ofInt 16 (start n - pos)))]

/-- The jumps of a block from `pos` on, before the blocks `next`. -/
def linkCode (start : Nat → Nat) (next : List Nat) : Nat → List (IREdge × Nat) → List Bytecode
  | _, [] => []
  | pos, (.default, n) :: es =>
    if next.head? = some n then linkCode start next pos es
    else .goto :: jumpTo start pos n ++ linkCode start next (pos + 3) es
  | pos, (.conditional op, n) :: es =>
    .cond op :: jumpTo start pos n ++ linkCode start next (pos + 3) es

/-- The code of a block at `pos`, before the blocks `next`. -/
def blockCode (start : Nat → Nat) (next : List Nat) (pos : Nat) (b : IRNode Bytecode) :
    List Bytecode :=
  b.instrs ++ linkCode start next (pos + b.instrs.length) (lsucSort b.edges)

theorem linkCode_length (start : Nat → Nat) (next : List Nat) (es : List (IREdge × Nat)) :
    ∀ pos, (linkCode start next pos es).length = (es.flatMap (linkage next)).length := by
  induction es with
  | nil => intro pos; rfl
  | cons e es ih =>
    intro pos
    obtain ⟨e, n⟩ := e
    cases e with
    | default =>
      simp only [linkCode, List.flatMap_cons, linkage]
      split <;> simp [jumpTo, ih]
    | conditional op => simp [linkCode, linkage, jumpTo, ih]

theorem blockCode_length (start : Nat → Nat) (next : List Nat) (pos : Nat) (b : IRNode Bytecode) :
    (blockCode start next pos b).length = (blockData next b).length := by
  simp [blockCode, blockData, linkCode_length]

variable (g : IRGraph Bytecode)

/-- The code of the blocks of an order, from `pos` on. -/
def placedCode (start : Nat → Nat) : List Nat → Nat → List Bytecode
  | [], _ => []
  | n :: rest, pos =>
    match g.node n with
    | none => []
    | some b => blockCode start rest pos b ++
        placedCode start rest (pos + (blockData rest b).length)

/-- Where a block of an order starts. -/
def startAt : List Nat → Nat → Nat → Nat
  | [], pos, _ => pos
  | m :: rest, pos, n =>
    if n = m then pos
    else startAt rest (pos + ((g.node m).map fun b => (blockData rest b).length).getD 0) n

/-- The code of the blocks of an order before its jumps are resolved. -/
def looseCode : List Nat → List Bytecode
  | [] => []
  | n :: rest => ((g.node n).map (blockData rest)).getD [] ++ looseCode rest

theorem scheduleBlocks'_ok (order : List Nat) :
    ∀ placement pos, order.Nodup → (∀ n ∈ order, ∃ b, g.node n = some b) →
      ∃ placement', scheduleBlocks' g order placement pos = .ok (placement', looseCode g order) ∧
        (∀ n, n ∉ order → placement'.lookup n = placement.lookup n) ∧
        ∀ n ∈ order, placement'.lookup n = some (startAt g order pos n) := by
  induction order with
  | nil =>
    intro placement pos _ _
    exact ⟨placement, rfl, fun _ _ => rfl, fun n hn => nomatch hn⟩
  | cons m rest ih =>
    intro placement pos hnodup hnodes
    obtain ⟨b, hb⟩ := hnodes m (by simp)
    obtain ⟨hm, hrest⟩ := List.nodup_cons.mp hnodup
    obtain ⟨placement', hok, hout, hin⟩ := ih ((m, pos) :: placement)
      (pos + (blockData rest b).length) hrest fun n hn => hnodes n (by simp [hn])
    refine ⟨placement', ?_, fun n hn => ?_, fun n hn => ?_⟩
    · simp [scheduleBlocks', hb, maybeToError, hok, looseCode, bind, Except.bind]
    · obtain ⟨hne, hn⟩ : n ≠ m ∧ n ∉ rest := by simpa using hn
      rw [hout n hn]
      simp [List.lookup_cons, beq_eq_false_iff_ne.mpr hne]
    · by_cases hne : n = m
      · subst hne
        rw [hout n hm]
        simp [startAt]
      · rw [hin n (by simpa [hne] using hn)]
        simp [startAt, hne, hb]

/-! ## Relocations -/

section

variable {placement : List (Nat × Nat)} {start : Nat → Nat}

theorem handleRelocations_cons {c : Bytecode} (hc : ∀ n, c ≠ .relocation n) (pos : Nat)
    {rest rest' : List Bytecode} (h : handleRelocations placement (pos + 1) rest = .ok rest') :
    handleRelocations placement pos (c :: rest) = .ok (c :: rest') := by
  cases c <;> first | exact absurd rfl (hc _) | simp [handleRelocations, h, bind, Except.bind]

theorem handleRelocations_resolved {code : List Bytecode} (hcode : Resolved code)
    {rest rest' : List Bytecode} :
    ∀ pos, handleRelocations placement (pos + code.length) rest = .ok rest' →
      handleRelocations placement pos (code ++ rest) = .ok (code ++ rest') := by
  induction code with
  | nil => intro pos h; exact h
  | cons c code ih =>
    intro pos h
    refine handleRelocations_cons (hcode c (by simp)) pos (ih (fun c hc => hcode c (by simp [hc])) _ ?_)
    rwa [List.length_cons, Nat.add_comm code.length 1, ← Nat.add_assoc] at h

theorem handleRelocations_jump {n : Nat} (hn : placement.lookup n = some (start n)) {c : Bytecode}
    (hc : ∀ n, c ≠ .relocation n) (pos : Nat) {rest rest' : List Bytecode}
    (h : handleRelocations placement (pos + 3) rest = .ok rest') :
    handleRelocations placement pos ([c, .relocation n, .nop] ++ rest) =
      .ok (c :: jumpTo start pos n ++ rest') := by
  refine handleRelocations_cons hc pos ?_
  have hsub : ((pos + 1 : Nat) : Int) - 1 = pos := by omega
  simp [handleRelocations, hn, h, maybeToError, jumpTo, bind, Except.bind]

theorem handleRelocations_links (next : List Nat) (es : List (IREdge × Nat))
    (hes : ∀ e ∈ es, placement.lookup e.2 = some (start e.2)) {rest rest' : List Bytecode} :
    ∀ pos, handleRelocations placement (pos + (es.flatMap (linkage next)).length) rest = .ok rest' →
      handleRelocations placement pos (es.flatMap (linkage next) ++ rest) =
        .ok (linkCode start next pos es ++ rest') := by
  induction es with
  | nil => intro pos h; exact h
  | cons e es ih =>
    intro pos h
    obtain ⟨e, n⟩ := e
    have hn : placement.lookup n = some (start n) := hes _ (List.mem_cons_self)
    have ih := ih fun e he => hes e (List.mem_cons_of_mem _ he)
    simp only [List.flatMap_cons, List.length_append] at h
    rw [List.flatMap_cons, List.append_assoc]
    cases e with
    | default =>
      by_cases hnext : next.head? = some n
      · simp only [linkage, hnext, if_true, List.length_nil, Nat.zero_add] at h
        simp only [linkage, linkCode, hnext, if_true]
        exact ih pos h
      · simp only [linkage, hnext, if_false] at h
        simp only [linkage, linkCode, hnext, if_false]
        rw [List.append_assoc]
        exact handleRelocations_jump hn (by simp) pos (ih (pos + 3) (by rwa [Nat.add_assoc]))
    | conditional op =>
      simp only [linkage] at h
      simp only [linkage, linkCode]
      rw [List.append_assoc]
      exact handleRelocations_jump hn (by simp) pos (ih (pos + 3) (by rwa [Nat.add_assoc]))

/-- The jumps of a whole order are resolved. -/
theorem handleRelocations_placed (order : List Nat)
    (hnodes : ∀ n ∈ order, ∃ b, g.node n = some b ∧ Resolved b.instrs ∧
      ∀ e ∈ b.edges, placement.lookup e.2 = some (start e.2)) :
    ∀ pos, handleRelocations placement pos (looseCode g order) = .ok (placedCode g start order pos) := by
  induction order with
  | nil => intro pos; rfl
  | cons n rest ih =>
    intro pos
    obtain ⟨b, hb, hres, htarget⟩ := hnodes n (by simp)
    have ih := ih fun m hm => hnodes m (by simp [hm])
    simp only [looseCode, placedCode, hb, Option.map_some, Option.getD_some, blockData, blockCode,
      List.append_assoc]
    refine handleRelocations_resolved hres pos (handleRelocations_links rest _ ?_ _ ?_)
    · exact fun e he => htarget e ((lsucSort_perm _).mem_iff.mp he)
    · rw [ih]
      simp only [List.length_append, Nat.add_assoc]

end

/-! ## The code of a method -/

variable {g}

/-- The starts of the blocks of a graph. -/
def blockStart (g : IRGraph Bytecode) : Nat → Nat := startAt g (orderBlocks g) 0

/-- **`scheduleBlocks`**: every relocation finds its target, and the code is that of the blocks in
    their order. -/
theorem scheduleBlocks_eq (hg : g.WellFormed) (hres : ∀ n b, g.node n = some b → Resolved b.instrs) :
    scheduleBlocks g = .ok (placedCode g (blockStart g) (orderBlocks g) 0) := by
  obtain ⟨hnodup, -, hmem⟩ := orderBlocks_spec hg
  have hnodes : ∀ n ∈ orderBlocks g, ∃ b, g.node n = some b :=
    fun n hn => hg.node_of_reachable ((hmem n).mp hn)
  obtain ⟨placement, hok, -, hstart⟩ := scheduleBlocks'_ok g (orderBlocks g) [] 0 hnodup hnodes
  have hreloc : handleRelocations placement 0 (looseCode g (orderBlocks g)) =
      .ok (placedCode g (blockStart g) (orderBlocks g) 0) := by
    refine handleRelocations_placed g _ (fun n hn => ?_) 0
    obtain ⟨b, hb⟩ := hnodes n hn
    refine ⟨b, hb, hres n b hb, fun e he => hstart e.2 ?_⟩
    exact (hmem e.2).mpr (((hmem n).mp hn).edge hb he)
  simp only [scheduleBlocks, hok, bind, Except.bind]
  exact hreloc

/-- The blocks of an order start one after another. -/
theorem le_startAt (order : List Nat) (n : Nat) : ∀ pos, pos ≤ startAt g order pos n := by
  induction order with
  | nil => intro pos; exact Nat.le_refl _
  | cons m rest ih =>
    intro pos
    unfold startAt
    split
    · exact Nat.le_refl _
    · exact (Nat.le_add_right _ _).trans (ih _)

/-- Where a block lies: after the code of the blocks before it, and before its `next` ones. -/
theorem placedCode_block {start : Nat → Nat} (order : List Nat) :
    ∀ pos, order.Nodup → (∀ n ∈ order, ∃ b, g.node n = some b) → ∀ n ∈ order, ∀ b, g.node n = some b →
      ∃ before next after,
        placedCode g start order pos =
          before ++ blockCode start next (startAt g order pos n) b ++ after ∧
        pos + before.length = startAt g order pos n ∧
        (∀ d, next.head? = some d → d ∈ order ∧
          startAt g order pos d = startAt g order pos n + (blockData next b).length) ∧
        ∀ k ∈ order, startAt g order pos k ≤ startAt g order pos n ∨
          startAt g order pos n + (blockData next b).length ≤ startAt g order pos k := by
  induction order with
  | nil => intro pos _ _ n hn; cases hn
  | cons m rest ih =>
    intro pos hnodup hnodes n hn b hb
    obtain ⟨hm, hrest⟩ := List.nodup_cons.mp hnodup
    obtain ⟨bm, hbm⟩ := hnodes m (by simp)
    have hstart : ∀ k, k ≠ m → startAt g (m :: rest) pos k =
        startAt g rest (pos + (blockData rest bm).length) k := by
      intro k hk
      simp [startAt, hk, hbm]
    have hhere : startAt g (m :: rest) pos m = pos := by simp [startAt]
    by_cases hne : n = m
    · subst hne
      cases hb.symm.trans hbm
      refine ⟨[], rest, _, by simp [placedCode, startAt, hb]; rfl, by simp [startAt], fun d hd => ?_,
        fun k hk => ?_⟩
      · obtain ⟨rest', rfl⟩ : ∃ rest', rest = d :: rest' := by
          cases rest with
          | nil => cases hd
          | cons d' rest' => cases hd; exact ⟨rest', rfl⟩
        have hdn : d ≠ n := fun h => hm (by simp [h])
        exact ⟨by simp, by simp [startAt, hdn, hb]⟩
      · by_cases hkn : k = n
        · exact .inl (hkn ▸ Nat.le_refl _)
        · right
          rw [hstart k hkn, hhere]
          exact le_startAt rest k _
    · have hn : n ∈ rest := by simpa [hne] using hn
      obtain ⟨before, next, after, hcode, hlen, hnext, hapart⟩ :=
        ih (pos + (blockData rest bm).length) hrest (fun k hk => hnodes k (by simp [hk])) n hn b hb
      rw [hstart n hne]
      refine ⟨blockCode start rest pos bm ++ before, next, after, ?_, ?_, fun d hd => ?_, fun k hk => ?_⟩
      · simp [placedCode, hbm, hcode]
      · rw [List.length_append, blockCode_length]
        omega
      · obtain ⟨hd, hdstart⟩ := hnext d hd
        refine ⟨by simp [hd], ?_⟩
        rw [hstart d fun h => hm (h ▸ hd), hdstart]
      · by_cases hkm : k = m
        · left
          rw [hkm, hhere]
          exact (Nat.le_add_right _ _).trans (le_startAt rest n _)
        · rw [hstart k hkm]
          exact hapart k (by simpa [hkm] using hk)

end KeyboardFirmware.Compiler
