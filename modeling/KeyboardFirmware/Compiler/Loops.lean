/-
  The graph of a method has the executions of its statements, up to `continue`.

  `Stands` says where in the graph a method is in the middle of its body: the code of the statements
  still to come stands there, and behind it the code of what is left (`ContIn`).  From such a place the
  graph does what the next step of the source does (`sourceStep_simulated`) unless that is a
  `continue`: its jump leads to the start of the body, behind the condition, where `break`, the end of
  the body and the entry lead where they should.
-/
import KeyboardFirmware.Compiler.Statements

namespace KeyboardFirmware.Compiler

open Lib

variable {σ : Type} {M : BlockMachine σ} {G : IRGraph IRInstruction}

/-! ## Where a method stands -/

/-- Nothing but a jump stands between two places. -/
def JoinsAt (G : IRGraph IRInstruction) (q r : Pos) : Prop :=
  r = q ∨ ∃ n, EndsAt G q [(.default, n)] ∧ r = (n, 0)

theorem JoinsAt.runs {q r : Pos} (h : JoinsAt G q r) (s : σ) :
    ∃ n, GraphSteps M G n (q, s) (r, s) := by
  rcases h with rfl | ⟨n, hends, rfl⟩
  · exact ⟨0, .refl _⟩
  · exact ⟨1, .one trivial (graphStep_end hends s)⟩

/-- The code of what is left stands at `q`, inside a loop as `env` says. -/
def ContIn (G : IRGraph IRInstruction) : Cont → LoopEnv → Pos → Prop
  | .done, env, q => env = ⟨none, none⟩ ∧ EndsAt G q []
  | .seq stats k, env, q =>
    ∃ q' r, JoinsAt G q q' ∧ stmtsIn G stats env q' r ∧ ContIn G k env r
  | .whileLoop cond body k, env, q => ∃ condId bodyId followingId r env',
    env = ⟨some bodyId, some followingId⟩ ∧ EndsAt G q [(.default, condId)] ∧
    (exprIn G cond).cond (condId, 0) bodyId followingId ∧ stmtIn G body env (bodyId, 0) r ∧
    EndsAt G r [(.default, condId)] ∧ ContIn G k env' (followingId, 0)
  | .forLoop cond iter body k, env, q => ∃ condId bodyId followingId q' r r' env',
    env = ⟨some bodyId, some followingId⟩ ∧ (exprIn G iter).void q q' ∧
    EndsAt G q' [(.default, condId)] ∧ (exprIn G cond).cond (condId, 0) bodyId followingId ∧
    stmtIn G body env (bodyId, 0) r ∧ (exprIn G iter).void r r' ∧
    EndsAt G r' [(.default, condId)] ∧ ContIn G k env' (followingId, 0)

/-- The graph stands where the source does, in the same state. -/
def Stands (G : IRGraph IRInstruction) : Config σ → Pos × σ → Prop
  | .running stats k s, x => x.2 = s ∧ ∃ env q, stmtsIn G stats env x.1 q ∧ ContIn G k env q
  | .finished s, x => x.2 = s ∧ EndsAt G x.1 []

theorem Stands.state_eq {c : Config σ} {x : Pos × σ} (h : Stands G c x) : x.2 = c.state := by
  cases c with
  | running => exact h.1
  | finished => exact h.1

/-- How much the source may do while the graph does nothing. -/
noncomputable def Cont.rank : Cont → Nat
  | .seq stats k => sizeOf stats + 1 + k.rank
  | _ => 0

noncomputable def Config.rank : Config σ → Nat
  | .running stats k _ => sizeOf stats + k.rank
  | .finished _ => 0

/-- A `break` leads behind the loop. -/
theorem ContIn.afterLoop {k : Cont} {env : LoopEnv} {q : Pos} (h : ContIn G k env q) {n : Nat}
    (hn : env.breakBlockId = some n) :
    ∃ k' env', k.afterLoop = some k' ∧ ContIn G k' env' (n, 0) := by
  induction k generalizing env q with
  | done =>
    obtain ⟨rfl, -⟩ := h
    exact (nomatch hn)
  | seq stats k ih =>
    obtain ⟨q', r, -, -, hk⟩ := h
    exact ih hk hn
  | whileLoop cond body k =>
    obtain ⟨condId, bodyId, followingId, r, env', rfl, -, -, -, -, hk⟩ := h
    obtain rfl := Option.some.inj hn
    exact ⟨k, env', rfl, hk⟩
  | forLoop cond iter body k =>
    obtain ⟨condId, bodyId, followingId, q', r, r', env', rfl, -, -, -, -, -, -, hk⟩ := h
    obtain rfl := Option.some.inj hn
    exact ⟨k, env', rfl, hk⟩

/-! ## Steps -/

/-- A round of a `while` loop, from its condition. -/
theorem whileRound_simulated {cond : TExpression} {body : TStatement} {k : Cont}
    {condId bodyId followingId : Nat} {r : Pos} {env' : LoopEnv}
    (hcond : (exprIn G cond).cond (condId, 0) bodyId followingId)
    (hbody : stmtIn G body ⟨some bodyId, some followingId⟩ (bodyId, 0) r)
    (hend : EndsAt G r [(.default, condId)]) (hk : ContIn G k env' (followingId, 0)) (s : σ) :
    ∃ n x, 0 < n ∧ GraphSteps M G n ((condId, 0), s) x ∧ Stands G (whileRound M cond body k s) x := by
  obtain ⟨n, hpos, hn⟩ := (exprIn_runs M G cond).cond hcond s
  refine ⟨n, _, hpos, hn, ?_⟩
  obtain ⟨b, s', hcs⟩ : ∃ b s', (exprSem M cond).cond s = (b, s') := ⟨_, _, rfl⟩
  simp only [whileRound, hcs]
  cases b with
  | true =>
    refine ⟨rfl, _, r, ⟨r, hbody, rfl⟩, ?_⟩
    exact ⟨condId, bodyId, followingId, r, env', rfl, hend, hcond, hbody, hend, hk⟩
  | false => exact ⟨rfl, env', _, rfl, hk⟩

/-- A round of a `for` loop, from its condition. -/
theorem forRound_simulated {cond iter : TExpression} {body : TStatement} {k : Cont}
    {condId bodyId followingId : Nat} {r r' : Pos} {env' : LoopEnv}
    (hcond : (exprIn G cond).cond (condId, 0) bodyId followingId)
    (hbody : stmtIn G body ⟨some bodyId, some followingId⟩ (bodyId, 0) r)
    (hiter : (exprIn G iter).void r r') (hend : EndsAt G r' [(.default, condId)])
    (hk : ContIn G k env' (followingId, 0)) (s : σ) :
    ∃ n x, 0 < n ∧ GraphSteps M G n ((condId, 0), s) x ∧
      Stands G (forRound M cond iter body k s) x := by
  obtain ⟨n, hpos, hn⟩ := (exprIn_runs M G cond).cond hcond s
  refine ⟨n, _, hpos, hn, ?_⟩
  obtain ⟨b, s', hcs⟩ : ∃ b s', (exprSem M cond).cond s = (b, s') := ⟨_, _, rfl⟩
  simp only [forRound, hcs]
  cases b with
  | true =>
    refine ⟨rfl, _, r, ⟨r, hbody, rfl⟩, ?_⟩
    exact ⟨condId, bodyId, followingId, r', r, r', env', rfl, hiter, hend, hcond, hbody, hiter, hend,
      hk⟩
  | false => exact ⟨rfl, env', _, rfl, hk⟩

/-- Code that leaves the method. -/
theorem leaveIn_simulated {R : PosRel} {f : σ → σ} (hR : RunsTo M G R f) {p q : Pos}
    (h : leaveIn G R p q) (s : σ) :
    ∃ n x, GraphSteps M G n (p, s) x ∧ Stands G (.finished (f s)) x := by
  obtain ⟨⟨r, hcode, hends⟩, -⟩ := h
  obtain ⟨n, hn⟩ := hR hcode s
  exact ⟨n, _, hn, rfl, hends⟩

/-- The graph goes from the end of a block to where a run goes on. -/
theorem run_simulated {n : Nat} {x y : Pos × σ} (hn : GraphSteps M G n x y) {c' : Config σ}
    (h : ∃ m z, 0 < m ∧ GraphSteps M G m y z ∧ Stands G c' z) {c : Config σ} :
    ∃ n z, GraphSteps M G n x z ∧ Stands G c' z ∧ (n = 0 → c'.rank < c.rank) := by
  obtain ⟨m, z, hpos, hm, hz⟩ := h
  exact ⟨n + m, z, hn.trans hm, hz, fun hzero => by omega⟩

/-- **One step** of the source, unless it is a `continue`. -/
theorem sourceStep_simulated (M : BlockMachine σ) (G : IRGraph IRInstruction) :
    Simulates (sourceStep M) (fun c => ¬ c.AtContinue) (graphStep M G) (Stands G) Config.rank := by
  rintro c c' ⟨p, s'⟩ hstands hplain hstep
  cases c with
  | finished s => exact (nomatch hstep)
  | running stats k s =>
    obtain ⟨rfl, env, q, hin, hk⟩ := hstands
    cases stats with
    | nil =>
      obtain rfl : q = p := hin
      cases k with
      | done => exact (nomatch hstep)
      | seq stats k =>
        -- the next statement of an enclosing block
        obtain rfl := Option.some.inj hstep
        obtain ⟨q', r, hjoin, hstats, hk⟩ := hk
        obtain ⟨n, hn⟩ := hjoin.runs s'
        refine ⟨n, _, hn, ⟨rfl, env, r, hstats, hk⟩, fun _ => ?_⟩
        simp only [Config.rank, Cont.rank]
        omega
      | whileLoop cond body k =>
        obtain rfl := Option.some.inj hstep
        obtain ⟨condId, bodyId, followingId, r, env', rfl, hend, hcond, hbody, hend', hk⟩ := hk
        exact run_simulated (.one trivial (graphStep_end hend _))
          (whileRound_simulated hcond hbody hend' hk _)
      | forLoop cond iter body k =>
        obtain rfl := Option.some.inj hstep
        obtain ⟨condId, bodyId, followingId, q', r, r', env', rfl, hiter, hend, hcond, hbody, hiter',
          hend', hk⟩ := hk
        obtain ⟨n, -, hn⟩ := (exprIn_runs M G iter).void.thenDefault hiter hend s'
        exact run_simulated hn (forRound_simulated hcond hbody hiter' hend' hk _)
    | cons stat rest =>
      obtain ⟨r, hstat, hrest⟩ := hin
      have hseq : ContIn G (.seq rest k) env r := ⟨r, q, .inl rfl, hrest, hk⟩
      cases stat with
      | block scope stats =>
        obtain rfl := Option.some.inj hstep
        refine ⟨0, _, .refl _, ⟨rfl, env, r, hstat, hseq⟩, fun _ => ?_⟩
        simp only [Config.rank, Cont.rank, List.cons.sizeOf_spec, TStatement.block.sizeOf_spec]
        omega
      | ifStatement expr thenBody elseBody =>
        obtain ⟨b, s₁, hcs⟩ : ∃ b s₁, (exprSem M expr).cond s' = (b, s₁) := ⟨_, _, rfl⟩
        simp only [sourceStep, hcs] at hstep
        cases elseBody with
        | none =>
          obtain ⟨thenId, followingId, r', hcond, hthen, hends, rfl⟩ := hstat
          obtain ⟨n, hpos, hn⟩ := (exprIn_runs M G expr).cond hcond s'
          rw [hcs] at hn
          refine ⟨n, _, hn, ?_, fun hzero => absurd hzero hpos.ne'⟩
          cases b with
          | true =>
            obtain rfl := Option.some.inj hstep
            exact ⟨rfl, env, r', ⟨r', hthen, rfl⟩, _, q, .inr ⟨_, hends, rfl⟩, hrest, hk⟩
          | false =>
            obtain rfl := Option.some.inj hstep
            exact ⟨rfl, env, _, rfl, hseq⟩
        | some elseBody =>
          obtain ⟨thenId, followingId, elseId, r₁, r₂, hcond, hthen, hends, helse, hends', rfl⟩ := hstat
          obtain ⟨n, hpos, hn⟩ := (exprIn_runs M G expr).cond hcond s'
          rw [hcs] at hn
          refine ⟨n, _, hn, ?_, fun hzero => absurd hzero hpos.ne'⟩
          cases b with
          | true =>
            obtain rfl := Option.some.inj hstep
            exact ⟨rfl, env, r₁, ⟨r₁, hthen, rfl⟩, _, q, .inr ⟨_, hends, rfl⟩, hrest, hk⟩
          | false =>
            obtain rfl := Option.some.inj hstep
            exact ⟨rfl, env, r₂, ⟨r₂, helse, rfl⟩, _, q, .inr ⟨_, hends', rfl⟩, hrest, hk⟩
      | whileStatement cond body =>
        obtain rfl := Option.some.inj hstep
        obtain ⟨condId, bodyId, followingId, r', hentry, hcond, hbody, hend, rfl⟩ := hstat
        exact run_simulated (.one trivial (graphStep_end hentry _))
          (whileRound_simulated hcond hbody hend hseq _)
      | forStatement initializer cond iter body =>
        obtain rfl := Option.some.inj hstep
        obtain ⟨condId, bodyId, followingId, r₁, r₂, r₃, hinit, hentry, hcond, hbody, hiter, hend,
          rfl⟩ := hstat
        obtain ⟨n, -, hn⟩ := (exprIn_runs M G initializer).void.thenDefault hinit hentry s'
        exact run_simulated hn (forRound_simulated hcond hbody hiter hend hseq _)
      | expressionStatement expr =>
        obtain rfl := Option.some.inj hstep
        obtain ⟨n, hn⟩ := (exprIn_runs M G expr).void hstat s'
        refine ⟨n, _, hn, ⟨rfl, env, q, hrest, hk⟩, fun _ => ?_⟩
        simp only [Config.rank, List.cons.sizeOf_spec]
        omega
      | returnValueStatement expr =>
        obtain rfl := Option.some.inj hstep
        obtain ⟨n, x, hn, hx⟩ := leaveIn_simulated
          ((exprIn_runs M G expr).value.andThen (instrAt_runs _)) hstat s'
        refine ⟨n, x, hn, hx, fun _ => ?_⟩
        simp only [Config.rank, List.cons.sizeOf_spec]
        omega
      | returnStatement =>
        obtain rfl := Option.some.inj hstep
        obtain ⟨n, x, hn, hx⟩ := leaveIn_simulated (instrAt_runs _) hstat s'
        refine ⟨n, x, hn, hx, fun _ => ?_⟩
        simp only [Config.rank, List.cons.sizeOf_spec]
        omega
      | exitStatement =>
        obtain rfl := Option.some.inj hstep
        obtain ⟨n, x, hn, hx⟩ := leaveIn_simulated (instrAt_runs _) hstat s'
        refine ⟨n, x, hn, hx, fun _ => ?_⟩
        simp only [Config.rank, List.cons.sizeOf_spec]
        omega
      | breakStatement =>
        obtain ⟨⟨b, hb, hends⟩, -⟩ := hstat
        obtain ⟨k', env', hafter, hk'⟩ := hk.afterLoop hb
        simp only [sourceStep, hafter, Option.map_some] at hstep
        obtain rfl := Option.some.inj hstep
        refine ⟨1, _, .one trivial (graphStep_end hends _), ⟨rfl, env', _, rfl, hk'⟩, ?_⟩
        exact fun hzero => absurd hzero Nat.one_ne_zero
      | continueStatement => exact absurd trivial hplain
      | empty =>
        obtain rfl := Option.some.inj hstep
        obtain rfl : r = p := hstat
        refine ⟨0, _, .refl _, ⟨rfl, env, q, hrest, hk⟩, fun _ => ?_⟩
        simp only [Config.rank, List.cons.sizeOf_spec]
        omega

/-! ## The graph of a method -/

/-- What `cleanGraph` and `checkReturns` change is nothing to a step. -/
theorem graphStep_covers {g g' : IRGraph IRInstruction} {t : Typ}
    (h : Covers (fun b b' => b' = closeBlock t b) g g') {x y : Pos × σ} (hx : g.Reachable x.1.1)
    (hstep : graphStep M g x = some y) : graphStep M g' x = some y ∧ g.Reachable y.1.1 := by
  obtain ⟨⟨n, i⟩, s⟩ := x
  cases hb : g.node n with
  | none =>
    simp only [graphStep, hb] at hstep
    cases hstep
  | some b =>
    obtain ⟨b', hb', rfl, hedges⟩ := h.node_of_reachable hx hb
    cases hi : b.instrs[i]? with
    | some instr =>
      have hi' : (closeBlock t b).instrs[i]? = some instr := by
        obtain ⟨rest, hrest⟩ := closeBlock_instrs t b
        have hlt : i < b.instrs.length := (List.getElem?_eq_some_iff.mp hi).1
        rw [← hrest, List.getElem?_append_left hlt, hi]
      rw [graphStep_instr hb hi] at hstep
      obtain rfl := Option.some.inj hstep
      exact ⟨graphStep_instr hb' hi' s, hx⟩
    | none =>
      simp only [graphStep, hb, hi] at hstep
      obtain ⟨e, he, htarget⟩ := jumpFrom_some hstep
      have hopen : closeBlock t b = b :=
        closeBlock_of_edges fun hnone => List.not_mem_nil (hnone ▸ he)
      rw [hopen] at hb'
      refine ⟨?_, htarget ▸ hx.edge hb he⟩
      simp only [graphStep, hb', hi]
      exact hstep

theorem graphSteps_covers {g g' : IRGraph IRInstruction} {t : Typ}
    (h : Covers (fun b b' => b' = closeBlock t b) g g') {n : Nat} {x y : Pos × σ}
    (hrun : GraphSteps M g n x y) (hx : g.Reachable x.1.1) :
    GraphSteps M g' n x y ∧ g.Reachable y.1.1 := by
  induction hrun with
  | refl => exact ⟨.refl _, hx⟩
  | head _ hstep _ ih =>
    obtain ⟨hstep', hx'⟩ := graphStep_covers h hx hstep
    obtain ⟨hrun', hy⟩ := ih hx'
    exact ⟨.head trivial hstep' hrun', hy⟩

/-- Nothing is left at `p` but perhaps the return of a method that comes to the end of its body. -/
def LeavesAt (G : IRGraph IRInstruction) (p : Pos) : Prop :=
  ∃ b, G.node p.1 = some b ∧ b.edges = [] ∧
    (b.instrs.drop p.2 = [] ∨ b.instrs.drop p.2 = [.return .void])

theorem EndsAt.leavesAt {g g' : IRGraph IRInstruction} {t : Typ}
    (h : Covers (fun b b' => b' = closeBlock t b) g g') {p : Pos} (hp : g.Reachable p.1)
    (hends : EndsAt g p []) : LeavesAt g' p := by
  obtain ⟨b, hb, hlen, hedges⟩ := hends
  obtain ⟨b', hb', rfl, hedges'⟩ := h.node_of_reachable hp hb
  refine ⟨_, hb', hedges'.trans hedges, ?_⟩
  unfold closeBlock
  split
  · right
    rw [← hlen]
    exact List.drop_left
  · exact .inl (List.drop_eq_nil_of_le (Nat.le_of_eq hlen))

/-- The source stops only where the method is left. -/
theorem Stands.final {c : Config σ} {x : Pos × σ} (h : Stands G c x) (hplain : ¬ c.AtContinue)
    (hstop : sourceStep M c = none) : c.Final := by
  cases c with
  | finished => trivial
  | running stats k s =>
    obtain ⟨-, env, q, hin, hk⟩ := h
    cases stats with
    | nil =>
      cases k with
      | done => trivial
      | seq | whileLoop | forLoop => exact (nomatch hstop)
    | cons stat rest =>
      obtain ⟨r, hstat, -⟩ := hin
      cases stat with
      | ifStatement expr thenBody elseBody =>
        simp only [sourceStep] at hstop
        split at hstop <;> exact (nomatch hstop)
      | breakStatement =>
        obtain ⟨⟨b, hb, -⟩, -⟩ := hstat
        obtain ⟨k', -, hafter, -⟩ := hk.afterLoop hb
        simp only [sourceStep, hafter, Option.map_some] at hstop
        exact (nomatch hstop)
      | continueStatement => exact absurd trivial hplain
      | _ => exact (nomatch hstop)

theorem Stands.endsAt {c : Config σ} {x : Pos × σ} (h : Stands G c x) (hfinal : c.Final) :
    EndsAt G x.1 [] := by
  cases c with
  | finished => exact h.2
  | running stats k s =>
    obtain ⟨-, env, q, hin, hk⟩ := h
    cases stats with
    | cons => exact hfinal.elim
    | nil =>
      cases k with
      | done =>
        obtain rfl : q = x.1 := hin
        exact hk.2
      | seq | whileLoop | forLoop => exact hfinal.elim

theorem LeavesAt.steps_le {p : Pos} (h : LeavesAt G p) {n : Nat} {s : σ} {x : Pos × σ}
    (hrun : GraphSteps M G n (p, s) x) : n ≤ 1 := by
  obtain ⟨b, hb, hedges, hrest⟩ := h
  have hstop : ∀ (i : Nat) (s : σ), b.instrs[i]? = none → graphStep M G ((p.1, i), s) = none := by
    intro i s hi
    simp only [graphStep, hb, hi, hedges, jumpFrom]
  cases hrun with
  | refl => exact Nat.zero_le 1
  | head _ hstep hrun =>
    rcases hrest with hnil | hret
    · rw [hstop p.2 s (List.getElem?_eq_none (List.drop_eq_nil_iff.mp hnil))] at hstep
      cases hstep
    · have hi : b.instrs[p.2]? = some (.return .void) := by
        rw [← Nat.add_zero p.2, ← List.getElem?_drop, hret]
        rfl
      have hnext : b.instrs[p.2 + 1]? = none := by
        rw [← List.getElem?_drop, hret]
        rfl
      rw [graphStep_instr hb hi] at hstep
      obtain rfl := Option.some.inj hstep
      cases hrun with
      | refl => exact Nat.le_refl 1
      | head _ hstep' =>
        rw [hstop _ _ hnext] at hstep'
        cases hstep'

/-- The graph gets to every state of a run of the statements. -/
theorem graph_reaches {m : TMethod} {irm : IRMethod} (hm : buildIRMethod m = .ok irm) {σ : Type}
    (M : BlockMachine σ) {s₀ : σ} {n : Nat} {c : Config σ} (hrun : PlainSteps M n (m.start s₀) c) :
    ∃ k p, GraphSteps M irm.graph k ((0, 0), s₀) (p, c.state) ∧ (c.Final → LeavesAt irm.graph p) := by
  obtain ⟨st, hbody, -, hcovers, -⟩ := buildIRMethod_ok hm
  obtain ⟨q, hin, hends⟩ := buildBody_in hbody
  have hstart : Stands st.blockGraph (m.start s₀) ((0, 0), s₀) :=
    ⟨rfl, ⟨none, none⟩, q, hin, rfl, hends⟩
  obtain ⟨k, ⟨p, s⟩, hk, hx⟩ := (sourceStep_simulated M st.blockGraph).run hrun _ hstart
  obtain ⟨hk', hreach⟩ := graphSteps_covers hcovers hk .refl
  obtain rfl : s = c.state := hx.state_eq
  exact ⟨k, p, hk', fun hfinal => (hx.endsAt hfinal).leavesAt hcovers hreach⟩

/-- **Loops and the other statements run as written, up to `continue`.**  Take any machine for the
    instructions of the graph of an accepted method.  Every run of its statements in which no
    `continue` is executed is a run of the graph, to the same state, and one that ends leaves the
    method in the graph too; and however far the graph runs, it is on its way along such a run, if
    this has not come to a `continue` (or all that is left is the return behind the body). -/
theorem statements_run_as_written {m : TMethod} {irm : IRMethod} (hm : buildIRMethod m = .ok irm)
    {σ : Type} (M : BlockMachine σ) (s₀ : σ) :
    (∀ n c, PlainSteps M n (m.start s₀) c →
      ∃ k p, GraphSteps M irm.graph k ((0, 0), s₀) (p, c.state) ∧
        (c.Final → LeavesAt irm.graph p)) ∧
    ∀ j x, GraphSteps M irm.graph j ((0, 0), s₀) x →
      ∃ n c k p, PlainSteps M n (m.start s₀) c ∧
        GraphSteps M irm.graph k ((0, 0), s₀) (p, c.state) ∧
        (j ≤ k ∨ c.AtContinue ∨ c.Final ∧ LeavesAt irm.graph p ∧ j = k + 1) := by
  obtain ⟨st, hbody, -, hcovers, -⟩ := buildIRMethod_ok hm
  obtain ⟨q, hin, hends⟩ := buildBody_in hbody
  have hstart : Stands st.blockGraph (m.start s₀) ((0, 0), s₀) :=
    ⟨rfl, ⟨none, none⟩, q, hin, rfl, hends⟩
  have hsim := sourceStep_simulated M st.blockGraph
  constructor
  · exact fun n c hrun => graph_reaches hm M hrun
  · intro j x hj
    obtain ⟨n, c, k, ⟨p, s⟩, hn, hk, hy, hend⟩ := hsim.covers j _ _ hstart
    obtain ⟨hk', hreach⟩ := graphSteps_covers hcovers hk .refl
    obtain rfl : s = c.state := hy.state_eq
    refine ⟨n, c, k, p, hn, hk', ?_⟩
    by_cases hcontinue : c.AtContinue
    · exact .inr (.inl hcontinue)
    · rcases hend with hle | hstop | hnot
      · exact .inl hle
      · have hfinal := hy.final hcontinue hstop
        have hleaves := (hy.endsAt hfinal).leavesAt hcovers hreach
        rcases Nat.lt_or_ge k j with hlt | hle
        · have hone := hleaves.steps_le (hj.rest hk' (Nat.le_of_lt hlt))
          exact .inr (.inr ⟨hfinal, hleaves, by omega⟩)
        · exact .inl hle
      · exact absurd hcontinue hnot

/-! ## A loop that counts down, and one that continues -/

/-- `while (x) x--;`. -/
def countdown : TMethod :=
  ⟨0, .void, [], [⟨0, .byte⟩], [],
    [.whileStatement (.localLoad .byte 0)
      (.expressionStatement (.postfixExpression .byte (.localLoad .byte 0) .postdecrement))]⟩

/-- The state is the variable. -/
def countdownMachine : BlockMachine Nat where
  exec
    | .store _, s => s - 1
    | _, s => s
  test _ s := (s ≠ 0, s)

theorem countdown_runs_as_written :
    ∃ irm, buildIRMethod countdown = .ok irm ∧
      ∃ k p, GraphSteps countdownMachine irm.graph k ((0, 0), 1) (p, 0) ∧ LeavesAt irm.graph p := by
  obtain ⟨irm, hm⟩ : ∃ irm, buildIRMethod countdown = .ok irm := ⟨_, rfl⟩
  have hrun : PlainSteps countdownMachine 4 (countdown.start 1) (.running [] .done 0) :=
    .head id rfl <| .head id rfl <| .head id rfl <| .head id rfl <| .refl _
  obtain ⟨k, p, hk, hleaves⟩ := (statements_run_as_written hm countdownMachine 1).1 _ _ hrun
  exact ⟨irm, hm, k, p, hk, hleaves trivial⟩

/-- `while (x) continue;`. -/
def continueLoop : TMethod :=
  ⟨0, .void, [], [⟨0, .byte⟩], [], [.whileStatement (.localLoad .byte 0) .continueStatement]⟩

/-- The state counts the tests; the first one is true. -/
def testCounter : BlockMachine Nat where
  exec _ s := s
  test _ s := (s = 0, s + 1)

/-- **A `continue` skips the condition**: as written, the condition is evaluated a second time, is
    false, and the method ends; the graph evaluates it once and stays in the body for ever. -/
theorem continue_skips_condition :
    ∃ irm, buildIRMethod continueLoop = .ok irm ∧
      (∃ n, Steps (sourceStep testCounter) (fun _ => True) n (continueLoop.start 0)
        (.running [] .done 2)) ∧
      ∀ k x, GraphSteps testCounter irm.graph k ((0, 0), 0) x →
        x.2 ≤ 1 ∧ (graphStep testCounter irm.graph x).isSome := by
  have hgraph : ∃ irm, buildIRMethod continueLoop = .ok irm ∧
      graphStep testCounter irm.graph ((0, 0), 0) = some ((1, 0), 0) ∧
      graphStep testCounter irm.graph ((1, 0), 0) = some ((1, 1), 0) ∧
      graphStep testCounter irm.graph ((1, 1), 0) = some ((2, 0), 1) ∧
      graphStep testCounter irm.graph ((2, 0), 1) = some ((2, 0), 1) := ⟨_, rfl, rfl, rfl, rfl, rfl⟩
  obtain ⟨irm, hm, h0, h1, h2, h3⟩ := hgraph
  refine ⟨irm, hm, ⟨4, ?_⟩, fun k x hrun => ?_⟩
  · exact .head trivial rfl <| .head trivial rfl <| .head trivial rfl <| .head trivial rfl <|
      .refl _
  · -- the four places the graph comes to
    have hplace : ∀ {k : Nat} {x y : Pos × Nat}, GraphSteps testCounter irm.graph k x y →
        (x = ((0, 0), 0) ∨ x = ((1, 0), 0) ∨ x = ((1, 1), 0) ∨ x = ((2, 0), 1)) →
        (y = ((0, 0), 0) ∨ y = ((1, 0), 0) ∨ y = ((1, 1), 0) ∨ y = ((2, 0), 1)) := by
      intro k x y hrun
      induction hrun with
      | refl => exact id
      | head _ hstep _ ih =>
        rintro (rfl | rfl | rfl | rfl)
        · exact ih (.inr (.inl (Option.some.inj (hstep.symm.trans h0))))
        · exact ih (.inr (.inr (.inl (Option.some.inj (hstep.symm.trans h1)))))
        · exact ih (.inr (.inr (.inr (Option.some.inj (hstep.symm.trans h2)))))
        · exact ih (.inr (.inr (.inr (Option.some.inj (hstep.symm.trans h3)))))
    rcases hplace hrun (.inl rfl) with rfl | rfl | rfl | rfl
    · exact ⟨Nat.zero_le 1, h0 ▸ rfl⟩
    · exact ⟨Nat.zero_le 1, h1 ▸ rfl⟩
    · exact ⟨Nat.zero_le 1, h2 ▸ rfl⟩
    · exact ⟨Nat.le_refl 1, h3 ▸ rfl⟩

end KeyboardFirmware.Compiler
