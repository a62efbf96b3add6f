/-
  The graph of a method: what the builder leaves, and what `cleanGraph` and `checkReturns` make of
  it.

  The built graph is well formed (`buildBody_wf`) and has the code of the body (`buildBody_in`).
  `cleanGraph` takes away only nodes that the entry does not lead to, so the blocks that can run are
  as they were built; `checkReturns` lets every block without edges end in a return or an exit
  (`buildIRMethod_ok`).
-/
import KeyboardFirmware.Compiler.BuildIn
import Mathlib.Logic.Relation

namespace KeyboardFirmware.Compiler

variable {α β : Type}

/-! ## Well-formed graphs -/

/-- A graph with an entry, whose blocks have edges of the right shape to blocks of the graph. -/
structure IRGraph.WellFormed (g : IRGraph α) : Prop where
  inRange : ∀ n b, g.node n = some b → n < g.size
  entry : ∃ b, g.node 0 = some b
  shape : ∀ n b, g.node n = some b → EdgeShape b.edges
  target : ∀ n b, g.node n = some b → ∀ e ∈ b.edges, ∃ b', g.node e.2 = some b'

/-- An edge leads from one node to another. -/
def IRGraph.Edge (g : IRGraph α) (m n : Nat) : Prop := ∃ e ∈ g.out m, e.2 = n

/-- The entry leads to a node. -/
def IRGraph.Reachable (g : IRGraph α) (n : Nat) : Prop := Relation.ReflTransGen g.Edge 0 n

theorem IRGraph.out_of_node {g : IRGraph α} {n : Nat} {b : IRNode α} (h : g.node n = some b) :
    g.out n = b.edges := by
  show ((g.node n).map (·.edges)).getD [] = b.edges
  rw [h]
  rfl

theorem IRGraph.mem_nodes {g : IRGraph α} {n : Nat} :
    n ∈ g.nodes ↔ n < g.size ∧ ∃ b, g.node n = some b := by
  rw [IRGraph.nodes, List.mem_filter, List.mem_range, Option.isSome_iff_exists]

theorem IRGraph.WellFormed.mem_nodes {g : IRGraph α} (hg : g.WellFormed) {n : Nat} :
    n ∈ g.nodes ↔ ∃ b, g.node n = some b :=
  IRGraph.mem_nodes.trans ⟨fun h => h.2, fun ⟨b, hb⟩ => ⟨hg.inRange n b hb, b, hb⟩⟩

theorem IRGraph.Reachable.zero (g : IRGraph α) : g.Reachable 0 := .refl

theorem IRGraph.Reachable.edge {g : IRGraph α} {n : Nat} {b : IRNode α} {e : IREdge × Nat}
    (h : g.Reachable n) (hb : g.node n = some b) (he : e ∈ b.edges) : g.Reachable e.2 :=
  h.tail ⟨e, by rwa [IRGraph.out_of_node hb], rfl⟩

theorem IRGraph.WellFormed.edge {g : IRGraph α} (hg : g.WellFormed) {m n : Nat} (h : g.Edge m n) :
    ∃ bm b, g.node m = some bm ∧ (∃ e ∈ bm.edges, e.2 = n) ∧ g.node n = some b := by
  obtain ⟨e, he, rfl⟩ := h
  cases hm : g.node m with
  | none =>
    exfalso
    simp [IRGraph.out, hm] at he
  | some bm =>
    rw [IRGraph.out_of_node hm] at he
    obtain ⟨b, hb⟩ := hg.target m bm hm e he
    exact ⟨bm, b, rfl, ⟨e, he, rfl⟩, hb⟩

theorem IRGraph.WellFormed.node_of_reachable {g : IRGraph α} (hg : g.WellFormed) {n : Nat}
    (h : g.Reachable n) : ∃ b, g.node n = some b := by
  induction h with
  | refl => exact hg.entry
  | tail _ hstep _ =>
    obtain ⟨-, b, -, -, hb⟩ := hg.edge hstep
    exact ⟨b, hb⟩

/-- `g'` has the blocks of `g` that can run, with their edges, each as `R` says. -/
structure Covers (R : IRNode α → IRNode β → Prop) (g : IRGraph α) (g' : IRGraph β) : Prop where
  wf : g'.WellFormed
  node : ∀ n b', g'.node n = some b' → ∃ b, g.node n = some b ∧ R b b' ∧ b'.edges = b.edges

namespace Covers

variable {γ : Type} {R : IRNode α → IRNode β → Prop} {g : IRGraph α} {g' : IRGraph β}

theorem reachable_iff (h : Covers R g g') (n : Nat) : g'.Reachable n ↔ g.Reachable n := by
  have hstep : ∀ m k, g'.Reachable m → (g'.Edge m k ↔ g.Edge m k) := by
    intro m k hm
    obtain ⟨b', hb'⟩ := h.wf.node_of_reachable hm
    obtain ⟨b, hb, -, hedges⟩ := h.node m b' hb'
    show (∃ e ∈ g'.out m, _) ↔ ∃ e ∈ g.out m, _
    rw [IRGraph.out_of_node hb, IRGraph.out_of_node hb', hedges]
  constructor
  · intro hn
    induction hn with
    | refl => exact .refl
    | tail hm hedge ih => exact ih.tail ((hstep _ _ hm).mp hedge)
  · intro hn
    induction hn with
    | refl => exact .refl
    | tail _ hedge ih => exact ih.tail ((hstep _ _ ih).mpr hedge)

theorem node_of_reachable (h : Covers R g g') {n : Nat} {b : IRNode α} (hn : g.Reachable n)
    (hb : g.node n = some b) : ∃ b', g'.node n = some b' ∧ R b b' ∧ b'.edges = b.edges := by
  obtain ⟨b', hb'⟩ := h.wf.node_of_reachable ((h.reachable_iff n).mpr hn)
  obtain ⟨b1, hb1, hR, hedges⟩ := h.node n b' hb'
  cases hb.symm.trans hb1
  exact ⟨b', hb', hR, hedges⟩

theorem mono {R' : IRNode α → IRNode β → Prop} (h : Covers R g g')
    (hR : ∀ b b', R b b' → R' b b') : Covers R' g g' where
  wf := h.wf
  node n b' hb' := by
    obtain ⟨b, hb, hRb, hedges⟩ := h.node n b' hb'
    exact ⟨b, hb, hR b b' hRb, hedges⟩

theorem trans {R' : IRNode β → IRNode γ → Prop} {g'' : IRGraph γ} (h : Covers R g g')
    (h' : Covers R' g' g'') : Covers (Relation.Comp R R') g g'' where
  wf := h'.wf
  node n b'' hb'' := by
    obtain ⟨b', hb', hR', hedges'⟩ := h'.node n b'' hb''
    obtain ⟨b, hb, hR, hedges⟩ := h.node n b' hb'
    exact ⟨b, hb, ⟨b', hR, hR'⟩, hedges'.trans hedges⟩

end Covers

/-! ## The built graph -/

theorem buildBody_ran {stats : List TStatement} {u : Unit} {st : BlockingState}
    (h : buildBody stats emptyState = .ok (u, st)) :
    Ran emptyState (fun _ => False) st (fun _ => False) fun G =>
      ∃ q, stmtsIn G stats ⟨none, none⟩ (0, 0) q ∧ EndsAt G q [] := by
  simp only [buildBody, state_bind_ok] at h
  obtain ⟨acc, st1, hnew, acc2, st2, hbody, hcommit⟩ := h
  obtain ⟨rfl, -, r0⟩ := newBasicBlock_ran hnew
  have henv : EnvOK emptyState := ⟨fun _ h => (by cases h), fun _ h => (by cases h)⟩
  have r1 := buildIRStatements_spec stats hbody (henv.builds r0.1) (r0.opened rfl)
  obtain ⟨-, r2⟩ := commitBasicBlock_ran hcommit (r1.opened rfl) (.inl rfl) (by simp)
  refine ((r0.trans r1 fun _ h => h).trans r2 fun _ h => .inr h).congr (by simp) fun G hG => ?_
  obtain ⟨⟨-, hcode⟩, hh, hends⟩ := hG
  have hin := (hcode hh).2
  rw [r0.1.env_eq] at hin
  exact ⟨acc2.pos, hin, hends⟩

theorem buildBody_wf {stats : List TStatement} {u : Unit} {st : BlockingState}
    (h : buildBody stats emptyState = .ok (u, st)) : st.blockGraph.WellFormed := by
  have hb := (buildBody_ran h).1
  have hdone : ∀ n < st.blockGraph.size, Done st.blockGraph n :=
    fun n hn => hb.done n hn (.inr (Nat.zero_le n)) fun h => h
  have hrange : ∀ n b, st.blockGraph.node n = some b → n < st.blockGraph.size := by
    intro n b hnode
    by_contra hge
    rw [hb.beyond n (Nat.not_lt.mp hge)] at hnode
    cases hnode
  have hpos : 0 < st.blockGraph.size := by
    obtain ⟨q, hin, b, hnode, -⟩ := (buildBody_ran h).2 st.blockGraph fun _ _ _ _ => rfl
    exact (Nat.zero_le _).trans_lt (hrange q.1 b hnode)
  refine ⟨hrange, ?_, ?_, ?_⟩
  · obtain ⟨b, hnode, -⟩ := hdone 0 hpos
    exact ⟨b, hnode⟩
  · intro n b hnode
    obtain ⟨b', hnode', hshape, -⟩ := hdone n (hrange n b hnode)
    cases hnode.symm.trans hnode'
    exact hshape
  · intro n b hnode e he
    obtain ⟨b', hnode', -, htarget⟩ := hdone n (hrange n b hnode)
    cases hnode.symm.trans hnode'
    obtain ⟨b'', hnode'', -⟩ := hdone e.2 (htarget e he)
    exact ⟨b'', hnode''⟩

/-- The built graph has the code of the body, from the entry to a block without edges. -/
theorem buildBody_in {stats : List TStatement} {u : Unit} {st : BlockingState}
    (h : buildBody stats emptyState = .ok (u, st)) :
    ∃ q, stmtsIn st.blockGraph stats ⟨none, none⟩ (0, 0) q ∧ EndsAt st.blockGraph q [] :=
  (buildBody_ran h).2 st.blockGraph fun _ _ _ _ => rfl

/-! ## `cleanGraph` -/

theorem mem_deadCodeNodes {g : IRGraph α} {n : Nat} :
    n ∈ deadCodeNodes g ↔ n ∈ g.nodes ∧ n ≠ 0 ∧ g.pre n = [] := by
  simp [deadCodeNodes]

/-- Nothing leads to a dead node from a node that is kept: the kept blocks keep all their edges. -/
theorem delNodes_dead_covers {g : IRGraph α} (hg : g.WellFormed) :
    Covers Eq g (g.delNodes (deadCodeNodes g)) := by
  have halive : ∀ n b, g.node n = some b → ∀ e ∈ b.edges, e.2 ∉ deadCodeNodes g := by
    intro n b hb e he hdead
    have hmem : n ∈ g.pre e.2 := by
      refine List.mem_filter.mpr ⟨List.mem_filter.mpr ⟨?_, by simp [hb]⟩, ?_⟩
      · exact List.mem_range.mpr (hg.inRange n b hb)
      · rw [IRGraph.out_of_node hb]
        exact List.any_eq_true.mpr ⟨e, he, by simp⟩
    rw [(mem_deadCodeNodes.mp hdead).2.2] at hmem
    cases hmem
  have hkeep : ∀ n, n ∉ deadCodeNodes g →
      (g.delNodes (deadCodeNodes g)).node n = g.node n := by
    intro n hn
    show (if n ∈ deadCodeNodes g then none else _) = _
    rw [if_neg hn]
    cases hb : g.node n with
    | none => rfl
    | some b =>
      show some { b with edges := _ } = some b
      rw [List.filter_eq_self.mpr fun e he => by simpa using halive n b hb e he]
  have hnode : ∀ n b, (g.delNodes (deadCodeNodes g)).node n = some b → g.node n = some b := by
    intro n b hb
    by_cases hn : n ∈ deadCodeNodes g
    · have hnone : (g.delNodes (deadCodeNodes g)).node n = none := if_pos hn
      rw [hnone] at hb
      cases hb
    · rwa [hkeep n hn] at hb
  refine ⟨⟨fun n b hb => hg.inRange n b (hnode n b hb), ?_, fun n b hb => hg.shape n b (hnode n b hb),
    ?_⟩, fun n b hb => ⟨b, hnode n b hb, rfl, rfl⟩⟩
  · obtain ⟨b, hb⟩ := hg.entry
    exact ⟨b, by rw [hkeep 0 fun h => (mem_deadCodeNodes.mp h).2.1 rfl, hb]⟩
  · intro n b hb e he
    obtain ⟨b', hb'⟩ := hg.target n b (hnode n b hb) e he
    exact ⟨b', by rw [hkeep _ (halive n b (hnode n b hb) e he), hb']⟩

theorem cleanRounds_covers (fuel : Nat) :
    ∀ g : IRGraph α, g.WellFormed → Covers Eq g (cleanRounds fuel g) := by
  induction fuel with
  | zero => exact fun g hg => ⟨hg, fun n b hb => ⟨b, hb, rfl, rfl⟩⟩
  | succ fuel ih =>
    intro g hg
    unfold cleanRounds
    split
    · exact ⟨hg, fun n b hb => ⟨b, hb, rfl, rfl⟩⟩
    · have h := delNodes_dead_covers hg
      exact (h.trans (ih _ h.wf)).mono fun b b' => by rintro ⟨_, rfl, rfl⟩; rfl

/-! ## `checkReturns` -/

/-- What `checkReturns` makes of a block. -/
def closeBlock (t : Typ) (b : IRNode IRInstruction) : IRNode IRInstruction :=
  if t = .void ∧ b.edges = [] ∧ noReturnBlock b.instrs then
    { b with instrs := b.instrs ++ [.return .void] }
  else b

@[simp] theorem closeBlock_edges (t : Typ) (b : IRNode IRInstruction) :
    (closeBlock t b).edges = b.edges := by
  unfold closeBlock
  split <;> rfl

theorem closeBlock_of_edges {t : Typ} {b : IRNode IRInstruction} (h : b.edges ≠ []) :
    closeBlock t b = b :=
  if_neg fun hc => h hc.2.1

theorem closeBlock_of_return {t : Typ} {b : IRNode IRInstruction}
    (h : noReturnBlock b.instrs = false) : closeBlock t b = b :=
  if_neg fun hc => by simp [h] at hc

/-- The instructions of a block stay, whatever is added after them. -/
theorem closeBlock_instrs (t : Typ) (b : IRNode IRInstruction) :
    b.instrs <+: (closeBlock t b).instrs := by
  unfold closeBlock
  split
  · exact List.prefix_append _ _
  · exact List.prefix_refl _

theorem mem_noReturnExitBlocks {g : IRGraph IRInstruction} {n : Nat} {b : IRNode IRInstruction}
    (hb : g.node n = some b) (hn : n < g.size) :
    n ∈ noReturnExitBlocks g ↔ b.edges = [] ∧ noReturnBlock b.instrs = true := by
  simp [noReturnExitBlocks, IRGraph.nodes, hb, hn]

theorem updateNode_ok {fn : List IRInstruction → List IRInstruction} {g g' : IRGraph IRInstruction}
    {n : Nat} (h : updateNode fn g n = .ok g') :
    ∃ b, g.node n = some b ∧ g' = g.set n (some { b with instrs := fn b.instrs }) := by
  obtain ⟨b, hb, h⟩ := bind_eq_ok.mp h
  exact ⟨b, maybeToError_ok.mp hb, (Except.ok.inj h).symm⟩

/-- Every one of some different nodes is changed once, and no other node is. -/
theorem updateNodes_node {fn : List IRInstruction → List IRInstruction} : ∀ {ns : List Nat}
    {g g' : IRGraph IRInstruction}, ns.Nodup → updateNodes fn g ns = .ok g' →
      g'.size = g.size ∧ ∀ n, g'.node n =
        if n ∈ ns then (g.node n).map fun b => { b with instrs := fn b.instrs } else g.node n := by
  intro ns
  induction ns with
  | nil =>
    intro g g' _ h
    cases h
    exact ⟨rfl, fun n => rfl⟩
  | cons m ns ih =>
    intro g g' hnodup h
    obtain ⟨hm, hns⟩ := List.nodup_cons.mp hnodup
    obtain ⟨g1, hg1, h⟩ := bind_eq_ok.mp h
    obtain ⟨b, hb, rfl⟩ := updateNode_ok hg1
    obtain ⟨hsize, hnode⟩ := ih hns h
    refine ⟨hsize, fun n => ?_⟩
    rw [hnode n]
    show (if n ∈ ns then Option.map _ (if n = m then _ else _) else if n = m then _ else _) = _
    by_cases hnm : n = m
    · subst hnm
      rw [if_neg hm, if_pos rfl, if_pos List.mem_cons_self, hb]
      rfl
    · simp only [List.mem_cons, hnm, false_or, if_false]

theorem noReturnExitBlocks_nodup (g : IRGraph IRInstruction) : (noReturnExitBlocks g).Nodup :=
  (List.nodup_range.filter _).filter _

theorem checkReturns_node {mId : MethodID} {g g' : IRGraph IRInstruction} {t : Typ}
    (hg : g.WellFormed) (h : checkReturns mId g t = .ok g') :
    g'.size = g.size ∧ (∀ n, g'.node n = (g.node n).map (closeBlock t)) ∧
      ∀ n b, g.node n = some b → b.edges = [] → noReturnBlock (closeBlock t b).instrs = false := by
  have hcase : ∀ t', t' ≠ .void →
      (if noReturnExitBlocks g = [] then .ok g
        else .error (.noReturnError ("Method " ++ toString mId ++ " missing return")) :
          ThrowsError _) = .ok g' →
      g'.size = g.size ∧ (∀ n, g'.node n = (g.node n).map (closeBlock t')) ∧
        ∀ n b, g.node n = some b → b.edges = [] →
          noReturnBlock (closeBlock t' b).instrs = false := by
    intro t' ht h
    have hclose : ∀ b, closeBlock t' b = b := fun b => if_neg fun hc => ht hc.1
    split at h
    case isTrue hnone =>
      cases h
      refine ⟨rfl, fun n => ?_, fun n b hb hedges => ?_⟩
      · rw [funext hclose]
        exact (Option.map_id' (x := g.node n)).symm
      · rw [hclose]
        by_contra hret
        have hmem := (mem_noReturnExitBlocks hb (hg.inRange n b hb)).mpr
          ⟨hedges, by simpa using hret⟩
        rw [hnone] at hmem
        cases hmem
    case isFalse => cases h
  cases t with
  | byte => exact hcase .byte (by decide) h
  | short => exact hcase .short (by decide) h
  | void =>
    obtain ⟨hsize, hnode⟩ := updateNodes_node (noReturnExitBlocks_nodup g) h
    refine ⟨hsize, fun n => ?_, fun n b hb hedges => ?_⟩
    · rw [hnode n]
      cases hb : g.node n with
      | none => split <;> rfl
      | some b =>
        simp only [mem_noReturnExitBlocks hb (hg.inRange n b hb), Option.map_some, closeBlock,
          true_and]
        split <;> rfl
    · unfold closeBlock
      split
      · simp [noReturnBlock]
      case isFalse hc =>
        simpa [hedges] using hc

theorem checkReturns_covers {mId : MethodID} {g g' : IRGraph IRInstruction} {t : Typ}
    (hg : g.WellFormed) (h : checkReturns mId g t = .ok g') :
    Covers (fun b b' => b' = closeBlock t b) g g' := by
  obtain ⟨hsize, hnode, -⟩ := checkReturns_node hg h
  have hback : ∀ n b', g'.node n = some b' → ∃ b, g.node n = some b ∧ b' = closeBlock t b := by
    intro n b' hb'
    rw [hnode, Option.map_eq_some_iff] at hb'
    obtain ⟨b, hb, rfl⟩ := hb'
    exact ⟨b, hb, rfl⟩
  have hfwd : ∀ n, (∃ b, g.node n = some b) → ∃ b', g'.node n = some b' := by
    rintro n ⟨b, hb⟩
    exact ⟨closeBlock t b, by rw [hnode, hb]; rfl⟩
  refine ⟨⟨?_, hfwd 0 hg.entry, ?_, ?_⟩, fun n b' hb' => ?_⟩
  · intro n b' hb'
    obtain ⟨b, hb, rfl⟩ := hback n b' hb'
    exact hsize ▸ hg.inRange n b hb
  · intro n b' hb'
    obtain ⟨b, hb, rfl⟩ := hback n b' hb'
    rw [closeBlock_edges]
    exact hg.shape n b hb
  · intro n b' hb' e he
    obtain ⟨b, hb, rfl⟩ := hback n b' hb'
    rw [closeBlock_edges] at he
    exact hfwd e.2 (hg.target n b hb e he)
  · obtain ⟨b, hb, rfl⟩ := hback n b' hb'
    exact ⟨b, hb, rfl, closeBlock_edges t b⟩

/-- **The graph of a method**: the blocks of the built graph that can run, each without edges closed
    by a return or an exit. -/
theorem buildIRMethod_ok {m : TMethod} {irm : IRMethod} (h : buildIRMethod m = .ok irm) :
    ∃ st, buildBody m.body emptyState = .ok ((), st) ∧ st.blockGraph.WellFormed ∧
      Covers (fun b b' => b' = closeBlock m.retType b) st.blockGraph irm.graph ∧
      (∀ n b, irm.graph.node n = some b → b.edges = [] → noReturnBlock b.instrs = false) ∧
      irm.id = m.id ∧ irm.argTypes = m.argTypes ∧ irm.vars = m.vars := by
  simp only [buildIRMethod, bind_eq_ok] at h
  obtain ⟨⟨⟨⟩, st⟩, hbody, g, hcheck, h⟩ := h
  cases h
  have hwf := buildBody_wf hbody
  have hclean : Covers Eq st.blockGraph (cleanGraph st.blockGraph) :=
    cleanRounds_covers _ _ hwf
  have hfinal := checkReturns_covers hclean.wf hcheck
  refine ⟨st, hbody, hwf, (hclean.trans hfinal).mono (by rintro b b' ⟨_, rfl, h⟩; exact h),
    fun n b' hb' hedges => ?_, rfl, rfl, rfl⟩
  obtain ⟨b, hb, rfl, -⟩ := hfinal.node n b' hb'
  rw [closeBlock_edges] at hedges
  exact (checkReturns_node hclean.wf hcheck).2.2 n b hb hedges

end KeyboardFirmware.Compiler
