/-
  The check for a missing return.

  A body can end without a return when its last block can be reached: no other block without edges
  lacks a return or an exit, and no block with edges has one (`fallOff_iff`).  The check looks for such a
  block in the cleaned graph, and cleaning takes away what nothing leads to: a loop leads to itself.  So
  a loop behind a return keeps itself, and the end of the body behind it (`missingReturn_iff`).
-/
import KeyboardFirmware.Compiler.Marked
import KeyboardFirmware.Compiler.Progress
import KeyboardFirmware.Lib.Supported

namespace KeyboardFirmware.Compiler

open Lib Relation

/-! ## Returns stand at the end of blocks without edges -/

/-- A return or an exit. -/
def isLeave : IRInstruction → Bool
  | .exit | .return _ => true
  | _ => false

/-- The labelling that only says that nothing follows a return or an exit. -/
def leaving : Tracking Unit where
  step i _ := if isLeave i then none else some ()
  test _ := some ()
  leaves i _ := isLeave i = true

theorem leaving_walk_iff (is : List IRInstruction) (l l' : Unit) :
    leaving.walk is l = some l' ↔ ∀ i ∈ is, isLeave i = false := by
  induction is generalizing l with
  | nil => simp [Tracking.walk]
  | cons i is ih =>
    rw [Tracking.walk, List.forall_mem_cons]
    by_cases hi : isLeave i = true
    · simp [leaving, hi]
    · have hstep : leaving.step i l = some () := if_neg hi
      rw [hstep, Option.bind_some, ih]
      simp [hi]

theorem plain_append {is : List IRInstruction} (h : ∀ i ∈ is, isLeave i = false) :
    Tracks leaving Eq (appendInstructionsM is) :=
  appendInstructionsM_tracks fun l l' _ => (leaving_walk_iff is l l').mpr h

theorem plain_one {i : IRInstruction} (h : isLeave i = false) :
    Tracks leaving Eq (appendInstructionsM [i]) :=
  plain_append (by simpa using h)

theorem plain_seq {c1 c2 : Code} (h1 : Tracks leaving Eq c1) (h2 : Tracks leaving Eq c2) :
    Tracks leaving Eq fun acc => c1 acc >>= c2 :=
  (h1.seq h2).mono fun l _ h => ⟨l, rfl, h⟩

theorem plain_booleanCast (t : Typ) : Tracks leaving Eq (booleanCast t) := by
  cases t with
  | byte => exact pure_tracks
  | short => exact plain_one rfl
  | void => intro st acc acc' st' h; cases h

theorem plain_discardValue (t : Typ) : Tracks leaving Eq (discardValue t) := by
  cases t with
  | void => exact pure_tracks
  | byte | short => exact plain_one rfl

/-- An expression has no return and no exit in any of its codes. -/
abbrev ExprPlain (c : ExprCode) : Prop := ExprTracks leaving Eq True c

theorem ExprPlain.ofValue {c1 c2 : Code} (h1 : Tracks leaving Eq c1) (h2 : Tracks leaving Eq c2) :
    ExprPlain (.ofValue c1 c2) :=
  ExprTracks.ofValue h1 h2 fun _ l => ⟨l, rfl, rfl⟩

theorem ExprPlain.ofCond {d : CondCode} {c2 : Code} (h1 : CondTracks leaving d)
    (h2 : Tracks leaving Eq c2) : ExprPlain (.ofCond d c2) :=
  ExprTracks.ofCond h1 h2 fun _ _ _ => ⟨rfl, rfl⟩

theorem isLeave_irConst (t : Typ) (n : Nat) : isLeave (irConst t n) = false := by
  cases t <;> rfl

theorem plain_step {load store step : IRInstruction} {t : Typ} {before after : List IRInstruction}
    (hload : isLeave load = false) (hstore : isLeave store = false) (hstep : isLeave step = false)
    (hbefore : ∀ i ∈ before, isLeave i = false) (hafter : ∀ i ∈ after, isLeave i = false) :
    Tracks leaving Eq (stepCode load store step t before after) := by
  refine plain_append fun i hi => ?_
  simp only [List.mem_append, List.mem_cons, List.not_mem_nil, or_false] at hi
  rcases hi with (((rfl | hi) | rfl | rfl) | hi) | rfl
  · exact hload
  · exact hbefore i hi
  · exact isLeave_irConst t 1
  · exact hstep
  · exact hafter i hi
  · exact hstore

theorem prefixStep_plain (op : PrefixOp) (e : TExpression) {c2 : Code} (hvoid : Tracks leaving Eq c2) :
    ExprPlain ((prefixStep op e).getD (.ofValue notMatched c2)) := by
  cases e
  case globalLoad | localLoad =>
    exact .ofValue (plain_step rfl rfl rfl (by simp) (by simp [isLeave]))
      (plain_step rfl rfl rfl (by simp) (by simp))
  all_goals exact .ofValue notMatched_tracks hvoid

theorem postfixStep_plain (op : PostfixOp) (e : TExpression) : ExprPlain (postfixStep op e) := by
  cases e
  case globalLoad | localLoad =>
    exact .ofValue (plain_step rfl rfl rfl (by simp [isLeave]) (by simp))
      (plain_step rfl rfl rfl (by simp) (by simp))
  all_goals exact .ofValue notMatched_tracks notMatched_tracks

theorem literal_plain {i : IRInstruction} (h : isLeave i = false) (b : Bool) :
    ExprPlain ⟨appendInstructionsM [i], pure, condConstant b⟩ :=
  ⟨plain_one h, pure_tracks, fun _ => condConstant_tracks b⟩

theorem condComparison_plain (t tr : Typ) (op : BinaryOp) (zLhs zRhs : Bool) {c1 c2 : Code}
    (h1 : Tracks leaving Eq c1) (h2 : Tracks leaving Eq c2) :
    CondTracks leaving (condComparison t tr op zLhs zRhs c1 c2) := by
  have hoperand : ∀ (u : Typ) (zero other : Bool) {c : Code}, Tracks leaving Eq c →
      Tracks leaving Eq (if zero then pure else if other then booleanValue u c else c) := by
    intro u zero other c h
    cases zero
    · cases other
      · exact h
      · exact plain_seq h (plain_booleanCast u)
    · exact pure_tracks
  have hcmp : Tracks leaving Eq
      (if zLhs || zRhs then pure else appendInstructionsM [.arith t .cmp]) := by
    cases zLhs || zRhs
    · exact plain_one rfl
    · exact pure_tracks
  exact condComparison_tracks op (hoperand t zLhs zRhs h1) (hoperand tr zRhs zLhs h2) hcmp
    fun _ l => ⟨l, ⟨l, ⟨l, rfl, rfl⟩, rfl⟩, rfl⟩

mutual

theorem exprCode_plain : ∀ e, ExprPlain (exprCode e)
  | .globalStore t i e =>
    have h := (exprCode_plain e).value
    .ofValue (plain_seq h (plain_append (by simp [isLeave]))) (plain_seq h (plain_one rfl))
  | .localStore t i e =>
    have h := (exprCode_plain e).value
    .ofValue (plain_seq h (plain_append (by simp [isLeave]))) (plain_seq h (plain_one rfl))
  | .globalLoad _ i => .ofValue (plain_one rfl) pure_tracks
  | .localLoad _ i => .ofValue (plain_one rfl) pure_tracks
  | .prefixExpression _ .not e =>
    have h := condNot_tracks ((exprCode_plain e).cond trivial)
    .ofCond h (conditionalToVoid_tracks h)
  | .prefixExpression t .complement e =>
    have h := exprCode_plain e
    .ofValue (plain_seq h.value (plain_one rfl)) h.void
  | .prefixExpression t .minus e =>
    have h := exprCode_plain e
    .ofValue (plain_seq (plain_one (isLeave_irConst t 0)) (plain_seq h.value (plain_one rfl))) h.void
  | .prefixExpression _ .predecrement e => prefixStep_plain _ e (exprCode_plain e).void
  | .prefixExpression _ .preincrement e => prefixStep_plain _ e (exprCode_plain e).void
  | .postfixExpression _ e op => postfixStep_plain op e
  | .binaryExpression t lhs op rhs => by
    have hl := exprCode_plain lhs
    have hr := exprCode_plain rhs
    have hvoid := plain_seq hl.void hr.void
    cases op
    case conj =>
      have h := condConj_tracks (hl.cond trivial) (hr.cond trivial)
      exact .ofCond h (conditionalToVoid_tracks h)
    case disj =>
      have h := condDisj_tracks (hl.cond trivial) (hr.cond trivial)
      exact .ofCond h (conditionalToVoid_tracks h)
    case gt | ge | lt | le | eq | ne =>
      exact .ofCond (condComparison_plain _ _ _ _ _ hl.value hr.value) hvoid
    all_goals exact .ofValue (plain_seq hl.value (plain_seq hr.value (plain_one rfl))) hvoid
  | .shortLiteral val => literal_plain rfl _
  | .byteLiteral val => literal_plain rfl _
  | .methodCall t i args =>
    have h := plain_seq (argsCode_plain args) (plain_one (i := .call i) rfl)
    .ofValue h (plain_seq h (plain_discardValue t))
  | .syscall t op args =>
    have h := plain_seq (argsCode_plain args) (plain_one (i := .syscall op) rfl)
    .ofValue h (plain_seq h (plain_discardValue t))
  | .typeConversion .void e => .ofValue (exprCode_plain e).void (exprCode_plain e).void
  | .typeConversion .short e =>
    have h := exprCode_plain e
    .ofValue (Tracks.guarded fun _ => plain_seq h.value (plain_one rfl)) h.void
  | .typeConversion .byte e =>
    have h := exprCode_plain e
    .ofValue (Tracks.guarded fun _ => plain_seq h.value (plain_one rfl)) h.void
  | .booleanConversion e =>
    have h := exprCode_plain e
    .ofValue (plain_seq h.value (plain_booleanCast _)) h.void

theorem argsCode_plain : ∀ es, Tracks leaving Eq (argsCode es)
  | [] => pure_tracks
  | e :: es => plain_seq (exprCode_plain e).value (argsCode_plain es)

end

/-- Statements of any expressions. -/
theorem stmtTracking_leaving : StmtTracking leaving () (fun _ => True) (fun _ => True) fun _ => True where
  cond e _ := (exprCode_plain e).cond trivial
  void e _ := (exprCode_plain e).void
  value e _ := ⟨Eq, (), rfl, (exprCode_plain e).value, rfl⟩
  exit := rfl
  returns := rfl

mutual

theorem stmtParts_true : ∀ s, StmtParts (fun _ => True) (fun _ => True) (fun _ => True) s
  | .block _ stats => stmtsParts_true stats
  | .ifStatement _ thenBody none => ⟨trivial, stmtParts_true thenBody, trivial⟩
  | .ifStatement _ thenBody (some elseBody) =>
    ⟨trivial, stmtParts_true thenBody, stmtParts_true elseBody⟩
  | .whileStatement _ body => ⟨trivial, stmtParts_true body⟩
  | .forStatement _ _ _ body => ⟨trivial, trivial, trivial, stmtParts_true body⟩
  | .expressionStatement _ | .returnValueStatement _ | .returnStatement | .exitStatement
  | .breakStatement | .continueStatement | .empty => trivial

theorem stmtsParts_true : ∀ ss, StmtsParts (fun _ => True) (fun _ => True) (fun _ => True) ss
  | [] => trivial
  | s :: ss => ⟨stmtParts_true s, stmtsParts_true ss⟩

end

/-! ## The end of the body -/

/-- No return and no exit in a block. -/
def NoLeave (g : IRGraph IRInstruction) (n : Nat) : Prop :=
  ∀ b, g.node n = some b → ∀ i ∈ b.instrs, isLeave i = false

/-- A path from the entry to the block `last` passes no return and no exit. -/
def FallsOff (g : IRGraph IRInstruction) (last : Nat) : Prop :=
  ReflTransGen (fun m n => NoLeave g m ∧ g.Edge m n) 0 last ∧ NoLeave g last

theorem noReturnBlock_of_noLeave {is : List IRInstruction} (h : ∀ i ∈ is, isLeave i = false) :
    noReturnBlock is = true := by
  rw [noReturnBlock]
  cases hlast : is.getLast? with
  | none => rfl
  | some i =>
    have hi := h i (List.mem_of_getLast? hlast)
    cases i <;> first | rfl | cases hi

theorem noReturnBlock_concat {is : List IRInstruction} {i : IRInstruction} (h : isLeave i = true) :
    noReturnBlock (is ++ [i]) = false := by
  rw [noReturnBlock, List.getLast?_concat]
  cases i <;> first | rfl | cases h

/-- The blocks of a body: those with edges pass no return, and of those without only the last. -/
structure BodyBlocks (g : IRGraph IRInstruction) (last : Nat) : Prop where
  passes : ∀ n b, g.node n = some b → b.edges ≠ [] → NoLeave g n
  last_noLeave : NoLeave g last
  fallOff_iff : ∀ n b, g.node n = some b → (b.edges = [] ∧ noReturnBlock b.instrs = true ↔ n = last)
  last_node : ∃ b, g.node last = some b

theorem buildBody_blocks {stats : List TStatement} {u : Unit} {st : BlockingState}
    (h : buildBody stats emptyState = .ok (u, st)) :
    ∃ acc st1, openBody stats emptyState = .ok (acc, st1) ∧ BodyBlocks st.blockGraph acc.id := by
  obtain ⟨acc, st1, hopen, -, H, -, -, hlast, hat, hfits⟩ :=
    buildBody_labelled stmtTracking_leaving (stmtsParts_true stats) h
  have hlastPlain : ∀ i ∈ acc.revInstrs.reverse, isLeave i = false := (leaving_walk_iff _ _ _).mp hat
  have hnoLeave : NoLeave st.blockGraph acc.id := by
    intro b hb
    obtain rfl := Option.some.inj (hlast.symm.trans hb)
    exact hlastPlain
  refine ⟨acc, st1, hopen, ?_, hnoLeave, ?_, ⟨_, hlast⟩⟩
  · intro n b hb hedges
    by_cases hn : n = acc.id
    · exact hn ▸ hnoLeave
    · intro b' hb'
      obtain rfl := Option.some.inj (hb.symm.trans hb')
      cases hfits n b hb hn with
      | goesOn hwalk _ => exact (leaving_walk_iff _ _ _).mp hwalk
      | ends heq _ _ => exact absurd (congrArg IRNode.edges heq) hedges
  · intro n b hb
    by_cases hn : n = acc.id
    · subst hn
      obtain rfl := Option.some.inj (hlast.symm.trans hb)
      exact iff_of_true ⟨rfl, noReturnBlock_of_noLeave hlastPlain⟩ rfl
    · refine iff_of_false ?_ hn
      rintro ⟨hedges, hno⟩
      cases hfits n b hb hn with
      | goesOn _ hleads =>
        rw [hedges] at hleads
        cases hleads
      | ends heq _ hleaves =>
        rw [heq, noReturnBlock_concat hleaves] at hno
        cases hno

/-- A path that passes no return is a path. -/
theorem fallsOff_iff {g : IRGraph IRInstruction} {last : Nat} (hg : g.WellFormed)
    (hb : BodyBlocks g last) : FallsOff g last ↔ g.Reachable last := by
  constructor
  · rintro ⟨hpath, -⟩
    exact ReflTransGen.mono (fun _ _ h => h.2) _ _ hpath
  · intro hpath
    refine ⟨ReflTransGen.mono (fun m n hedge => ⟨?_, hedge⟩) _ _ hpath, hb.last_noLeave⟩
    obtain ⟨b, -, hm, ⟨e, he, -⟩, -⟩ := hg.edge hedge
    exact hb.passes m b hm (List.ne_nil_of_mem he)

/-! ## What cleaning leaves -/

variable {α : Type} {g : IRGraph α}

theorem mem_pre {m n : Nat} : m ∈ g.pre n ↔ m ∈ g.nodes ∧ g.Edge m n := by
  rw [IRGraph.pre, List.mem_filter, List.any_eq_true]
  simp only [decide_eq_true_eq]
  rfl

theorem delNodes_nodes (ns : List Nat) : (g.delNodes ns).nodes = g.nodes.filter (· ∉ ns) := by
  have hsome : ∀ m, ((g.delNodes ns).node m).isSome = (decide (m ∉ ns) && (g.node m).isSome) := by
    intro m
    show (if m ∈ ns then none else _ : Option (IRNode α)).isSome = _
    by_cases hm : m ∈ ns <;> simp [hm]
  rw [IRGraph.nodes, IRGraph.nodes, List.filter_filter]
  exact List.filter_congr fun m _ => hsome m

/-- A node that was kept has its edges. -/
theorem Covers.edge_iff {β : Type} {R : IRNode α → IRNode β → Prop} {g' : IRGraph β}
    (h : Covers R g g') {m n : Nat} (hm : ∃ b, g'.node m = some b) : g'.Edge m n ↔ g.Edge m n := by
  obtain ⟨b', hb'⟩ := hm
  obtain ⟨b, hb, -, hedges⟩ := h.node m b' hb'
  rw [IRGraph.Edge, IRGraph.Edge, IRGraph.out_of_node hb, IRGraph.out_of_node hb', hedges]

/-- With fuel for all nodes the rounds end when nothing is dead. -/
theorem cleanRounds_noDead : ∀ (fuel : Nat) (g : IRGraph α), g.nodes.length ≤ fuel →
    deadCodeNodes (cleanRounds fuel g) = [] := by
  intro fuel
  induction fuel with
  | zero =>
    intro g h
    rw [cleanRounds, deadCodeNodes, List.length_eq_zero_iff.mp (Nat.le_zero.mp h)]
    rfl
  | succ fuel ih =>
    intro g h
    rw [cleanRounds]
    split
    next hdead => exact hdead
    next hdead =>
      refine ih _ ?_
      obtain ⟨n, hn⟩ := List.exists_mem_of_ne_nil _ hdead
      have hlt : (g.nodes.filter (· ∉ deadCodeNodes g)).length < g.nodes.length :=
        List.length_filter_lt_length_iff_exists.mpr
          ⟨n, (mem_deadCodeNodes.mp hn).1, by simpa using hn⟩
      rw [delNodes_nodes]
      omega

/-- A set that supports itself stays through the rounds. -/
theorem cleanRounds_keeps (S : Set Nat) : ∀ (fuel : Nat) (g : IRGraph α), g.WellFormed →
    (∀ n ∈ S, n ∈ g.nodes) → (∀ n ∈ S, n ≠ 0 → ∃ m ∈ S, g.Edge m n) →
      ∀ n ∈ S, n ∈ (cleanRounds fuel g).nodes := by
  intro fuel
  induction fuel with
  | zero => exact fun g _ hS _ => hS
  | succ fuel ih =>
    intro g hg hS hsupport
    rw [cleanRounds]
    split
    · exact hS
    · have hcovers := delNodes_dead_covers hg
      have halive : ∀ n ∈ S, n ∉ deadCodeNodes g := by
        intro n hn hdead
        obtain ⟨-, hne, hpre⟩ := mem_deadCodeNodes.mp hdead
        obtain ⟨m, hm, hedge⟩ := hsupport n hn hne
        have hmem := mem_pre.mpr ⟨hS m hm, hedge⟩
        rw [hpre] at hmem
        cases hmem
      have hS' : ∀ n ∈ S, n ∈ (g.delNodes (deadCodeNodes g)).nodes := by
        intro n hn
        rw [delNodes_nodes]
        exact List.mem_filter.mpr ⟨hS n hn, decide_eq_true (halive n hn)⟩
      refine ih _ hcovers.wf hS' fun n hn hne => ?_
      obtain ⟨m, hm, hedge⟩ := hsupport n hn hne
      exact ⟨m, hm, (hcovers.edge_iff (IRGraph.mem_nodes.mp (hS' m hm)).2).mpr hedge⟩

/-- What the entry or a cycle leads to is a node. -/
theorem IRGraph.WellFormed.mem_nodes_of_reached (hg : g.WellFormed) {n : Nat}
    (h : g.Reachable n ∨ FromCycle g.Edge n) : n ∈ g.nodes := by
  have hnode : ∃ b, g.node n = some b := by
    rcases h with hn | hn
    · exact hg.node_of_reachable hn
    · by_cases hne : n = 0
      · exact hne ▸ hg.entry
      · obtain ⟨m, -, hedge⟩ := supported_reached g.Edge 0 n (.inr hn) hne
        obtain ⟨-, b, -, -, hb⟩ := hg.edge hedge
        exact ⟨b, hb⟩
  obtain ⟨b, hb⟩ := hnode
  exact IRGraph.mem_nodes.mpr ⟨hg.inRange n b hb, b, hb⟩

/-- **Cleaning keeps** what the entry leads to and what a cycle leads to. -/
theorem cleanGraph_node_iff (hg : g.WellFormed) (n : Nat) :
    (∃ b, (cleanGraph g).node n = some b) ↔ g.Reachable n ∨ FromCycle g.Edge n := by
  have hcovers : Covers Eq g (cleanGraph g) := cleanRounds_covers _ _ hg
  constructor
  · rintro ⟨b, hb⟩
    have hnoDead : deadCodeNodes (cleanGraph g) = [] :=
      cleanRounds_noDead _ _ (List.length_filter_le _ _ |>.trans List.length_range.le)
    have hsupported : Supported g.Edge 0 {n | n ∈ (cleanGraph g).nodes} := by
      intro n hn hne
      have hpre : (cleanGraph g).pre n ≠ [] := by
        intro hpre
        have hdead := mem_deadCodeNodes.mpr ⟨hn, hne, hpre⟩
        rw [hnoDead] at hdead
        cases hdead
      obtain ⟨m, hm⟩ := List.exists_mem_of_ne_nil _ hpre
      obtain ⟨hmem, hedge⟩ := mem_pre.mp hm
      exact ⟨m, hmem, (hcovers.edge_iff (IRGraph.mem_nodes.mp hmem).2).mp hedge⟩
    exact hsupported.reached (List.finite_toSet _) (IRGraph.mem_nodes.mpr ⟨hcovers.wf.inRange n b hb, b, hb⟩)
  · intro hreached
    have hmem := cleanRounds_keeps {n | g.Reachable n ∨ FromCycle g.Edge n} g.size g hg
      (fun n hn => hg.mem_nodes_of_reached hn) (supported_reached g.Edge 0) n hreached
    exact (IRGraph.mem_nodes.mp hmem).2

/-- A block that can be reached is kept with its edges. -/
theorem cleanGraph_node_of_reachable (hg : g.WellFormed) {n : Nat} {b : IRNode α}
    (hn : g.Reachable n) (hb : g.node n = some b) : (cleanGraph g).node n = some b := by
  have hcovers : Covers Eq g (cleanGraph g) := cleanRounds_covers _ _ hg
  obtain ⟨b', hb', rfl, -⟩ := hcovers.node_of_reachable hn hb
  exact hb'

/-! ## The check -/

/-- The check reports a method exactly when cleaning left the end of its body. -/
theorem buildIRMethod_missingReturn_iff {m : TMethod} {last : Nat} {st : BlockingState}
    (hret : m.retType ≠ .void) (hbody : buildBody m.body emptyState = .ok ((), st))
    (hb : BodyBlocks st.blockGraph last) :
    buildIRMethod m = .error (missingReturn m) ↔ ∃ b, (cleanGraph st.blockGraph).node last = some b := by
  have hcovers : Covers Eq st.blockGraph (cleanGraph st.blockGraph) :=
    cleanRounds_covers _ _ (buildBody_wf hbody)
  have hmethod : buildIRMethod m = (checkReturns m.id (cleanGraph st.blockGraph) m.retType >>=
      fun g => .ok ⟨m.id, m.argTypes, g, m.vars⟩) := by
    show (buildBody m.body emptyState >>= _) = _
    rw [hbody]
    rfl
  have hcheck : checkReturns m.id (cleanGraph st.blockGraph) m.retType =
      if noReturnExitBlocks (cleanGraph st.blockGraph) = [] then .ok (cleanGraph st.blockGraph)
      else .error (missingReturn m) := by
    cases ht : m.retType with
    | void => exact absurd ht hret
    | byte | short => rfl
  rw [hmethod, hcheck]
  have hexit : noReturnExitBlocks (cleanGraph st.blockGraph) = [] ↔
      ¬ ∃ b, (cleanGraph st.blockGraph).node last = some b := by
    constructor
    · rintro hnone ⟨b, hlast⟩
      obtain ⟨b', hb', rfl, -⟩ := hcovers.node last b hlast
      have hmem := (mem_noReturnExitBlocks hlast (hcovers.wf.inRange last b' hlast)).mpr
        ((hb.fallOff_iff last b' hb').mpr rfl)
      rw [hnone] at hmem
      cases hmem
    · intro hnone
      refine List.eq_nil_iff_forall_not_mem.mpr fun n hn => hnone ?_
      obtain ⟨hlt, b, hnode⟩ := IRGraph.mem_nodes.mp (List.mem_of_mem_filter hn)
      obtain ⟨b', hb', rfl, -⟩ := hcovers.node n b hnode
      have hn' := (hb.fallOff_iff n b' hb').mp ((mem_noReturnExitBlocks hnode hlt).mp hn)
      exact ⟨b', hn' ▸ hnode⟩
  by_cases hnone : noReturnExitBlocks (cleanGraph st.blockGraph) = []
  · rw [if_pos hnone]
    exact iff_of_false (fun h => nomatch h) (hexit.mp hnone)
  · rw [if_neg hnone]
    exact iff_of_true rfl (not_not.mp fun h => hnone (hexit.mpr h))

/-- A loop that the entry does not lead to leads to `last`. -/
def DeadLoopLeadsTo (g : IRGraph α) (last : Nat) : Prop :=
  ∃ n, ¬ g.Reachable n ∧ TransGen g.Edge n n ∧ ReflTransGen g.Edge n last

/-- **The check for a missing return** tells whether a path from the entry to the end of the body
    passes no return and no exit, exactly when there is such a path or no loop that cannot be reached
    leads to the end.  Such a path is always reported, and cleaning keeps every block that can be
    reached, with its edges. -/
theorem missingReturn_iff (m : TMethod) (acc : BlockAccum) (st1 st : BlockingState)
    (hret : m.retType ≠ .void) (hopen : openBody m.body emptyState = .ok (acc, st1))
    (hbody : buildBody m.body emptyState = .ok ((), st)) :
    ((buildIRMethod m = .error (missingReturn m) ↔ FallsOff st.blockGraph acc.id) ↔
        FallsOff st.blockGraph acc.id ∨ ¬ DeadLoopLeadsTo st.blockGraph acc.id) ∧
      (FallsOff st.blockGraph acc.id → buildIRMethod m = .error (missingReturn m)) ∧
      ∀ n b, st.blockGraph.Reachable n → st.blockGraph.node n = some b →
        (cleanGraph st.blockGraph).node n = some b := by
  have hwf := buildBody_wf hbody
  obtain ⟨acc', st1', hopen', hb⟩ := buildBody_blocks hbody
  obtain ⟨rfl, rfl⟩ := Prod.mk.inj (Except.ok.inj (hopen.symm.trans hopen'))
  have herror : buildIRMethod m = .error (missingReturn m) ↔
      FallsOff st.blockGraph acc.id ∨ DeadLoopLeadsTo st.blockGraph acc.id := by
    rw [buildIRMethod_missingReturn_iff hret hbody hb, cleanGraph_node_iff hwf, fallsOff_iff hwf hb]
    constructor
    · rintro (hreach | ⟨c, hcycle, hlead⟩)
      · exact .inl hreach
      · by_cases hc : st.blockGraph.Reachable c
        · exact .inl (ReflTransGen.trans hc hlead)
        · exact .inr ⟨c, hc, hcycle, hlead⟩
    · rintro (hreach | ⟨c, -, hcycle, hlead⟩)
      · exact .inl hreach
      · exact .inr ⟨c, hcycle, hlead⟩
  refine ⟨?_, fun h => herror.mpr (.inl h), fun n b => cleanGraph_node_of_reachable hwf⟩
  rw [herror]
  tauto

/-- `byte main() { return 1; }` -/
theorem missingReturn_iff_returnOne : ∃ acc st,
    (buildIRMethod ⟨0, .byte, [], [], [], [.returnValueStatement (.byteLiteral 1)]⟩ =
          .error (.noReturnError "Method 0 missing return") ↔ FallsOff st acc) ↔
      FallsOff st acc ∨ ¬ DeadLoopLeadsTo st acc := by
  obtain ⟨p, hp⟩ : ∃ p, openBody [.returnValueStatement (.byteLiteral 1)] emptyState = .ok p := ⟨_, rfl⟩
  obtain ⟨q, hq⟩ : ∃ q, buildBody [.returnValueStatement (.byteLiteral 1)] emptyState = .ok q :=
    ⟨_, rfl⟩
  exact ⟨p.1.id, q.2.blockGraph, (missingReturn_iff
    ⟨0, .byte, [], [], [], [.returnValueStatement (.byteLiteral 1)]⟩ p.1 p.2 q.2 (by decide) hp hq).1⟩

/-- `byte main() { byte x; return 1; while (x) { } }` -/
def loopBehindReturn : List Declaration :=
  [.methodDeclaration .byte "main" []
    [.variableDeclarationStatement .byte "x" none, .returnValueStatement (.byteLiteral 1),
      .whileStatement (.variableAccess "x") (.block [])]]

/-- **A loop behind a return is reported**: nothing leads from the return to the end of the body, but
    the loop keeps itself and the end. -/
theorem loopBehindReturn_reported :
    ¬ ∀ (decs : List Declaration) (p : TProgram) (m : TMethod) (acc : BlockAccum)
      (st1 st : BlockingState), buildTProgram decs = .ok p → m ∈ (constantEvalProgram p).methods →
      m.retType ≠ .void → openBody m.body emptyState = .ok (acc, st1) →
      buildBody m.body emptyState = .ok ((), st) →
      (buildIRMethod m = .error (missingReturn m) ↔ FallsOff st.blockGraph acc.id) := by
  intro h
  have hiff := h loopBehindReturn _ _ _ _ _ rfl List.mem_cons_self (by decide) rfl rfl
  obtain ⟨hpath, -⟩ := hiff.mp rfl
  rcases hpath.cases_head with heq | ⟨n, ⟨-, e, he, -⟩, -⟩
  · exact absurd heq (by decide)
  · -- the block with the return has no edges
    exact absurd he List.not_mem_nil

end KeyboardFirmware.Compiler
