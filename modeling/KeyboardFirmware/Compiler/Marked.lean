/-
  Labels of the blocks of statements.

  A statement starts and ends with one label, the base; so do the blocks a loop leads back to and the
  blocks that `continue` and `break` lead to.  `stmtMarked` is `stmtIn` with a mark at each of these
  places.  What is asked of the expressions is bundled in `StmtTracking`; the statements follow from
  it (`buildIRStatements_marks`), and the whole body (`buildBody_labelled`).
-/
import KeyboardFirmware.Compiler.Labels

namespace KeyboardFirmware.Compiler

/-! ## Marked code -/

section

variable (G : IRGraph IRInstruction) (M : Pos → Prop)

mutual

/-- The code of a statement in `G`, with a mark where it starts, where it ends and where its loops do. -/
def stmtMarked : TStatement → LoopEnv → PosRel
  | .block _ stats, env => fun p q => M p ∧ M q ∧ stmtsMarked stats env p q
  | .ifStatement expr thenBody none, env => fun p q => M p ∧ M q ∧
    ∃ thenId followingId r, (exprIn G expr).cond p thenId followingId ∧
      stmtMarked thenBody env (thenId, 0) r ∧ EndsAt G r [(.default, followingId)] ∧
      q = (followingId, 0)
  | .ifStatement expr thenBody (some elseBody), env => fun p q => M p ∧ M q ∧
    ∃ thenId followingId elseId r r', (exprIn G expr).cond p thenId elseId ∧
      stmtMarked thenBody env (thenId, 0) r ∧ EndsAt G r [(.default, followingId)] ∧
      stmtMarked elseBody env (elseId, 0) r' ∧ EndsAt G r' [(.default, followingId)] ∧
      q = (followingId, 0)
  | .whileStatement cond body, _ => fun p q => M p ∧ M q ∧
    ∃ condId bodyId followingId r, EndsAt G p [(.default, condId)] ∧ M (condId, 0) ∧
      (exprIn G cond).cond (condId, 0) bodyId followingId ∧
      stmtMarked body ⟨some bodyId, some followingId⟩ (bodyId, 0) r ∧
      EndsAt G r [(.default, condId)] ∧ q = (followingId, 0)
  | .forStatement initializer cond iter body, _ => fun p q => M p ∧ M q ∧
    ∃ condId bodyId followingId r r' r'', (exprIn G initializer).void p r ∧
      EndsAt G r [(.default, condId)] ∧ M r ∧ M (condId, 0) ∧
      (exprIn G cond).cond (condId, 0) bodyId followingId ∧
      stmtMarked body ⟨some bodyId, some followingId⟩ (bodyId, 0) r' ∧
      (exprIn G iter).void r' r'' ∧ M r'' ∧ EndsAt G r'' [(.default, condId)] ∧ q = (followingId, 0)
  | .breakStatement, env => fun p q => M p ∧ M q ∧ jumpIn G env.breakBlockId p q
  | .continueStatement, env => fun p q => M p ∧ M q ∧ jumpIn G env.continueBlockId p q
  | .exitStatement, _ => fun p q => M p ∧ M q ∧ leaveIn G (InstrsAt G [.exit]) p q
  | .returnStatement, _ => fun p q => M p ∧ M q ∧ leaveIn G (InstrsAt G [.return .void]) p q
  | .returnValueStatement expr, _ => fun p q => M p ∧ M q ∧
    leaveIn G (andThen (exprIn G expr).value (InstrsAt G [.return (typeOf expr)])) p q
  | .expressionStatement expr, _ => fun p q => M p ∧ M q ∧ (exprIn G expr).void p q
  | .empty, _ => fun p q => M p ∧ M q ∧ stay p q

def stmtsMarked : List TStatement → LoopEnv → PosRel
  | [], _ => stay
  | s :: ss, env => andThen (stmtMarked s env) (stmtsMarked ss env)

end

variable {G M} {M' : Pos → Prop}

mutual

/-- Fewer marks. -/
theorem stmtMarked_mono (h : ∀ p, M p → M' p) : ∀ (s : TStatement) {env : LoopEnv} {p q : Pos},
    stmtMarked G M s env p q → stmtMarked G M' s env p q
  | .block _ stats, _, _, _, ⟨hp, hq, hs⟩ => ⟨h _ hp, h _ hq, stmtsMarked_mono h stats hs⟩
  | .ifStatement _ thenBody none, _, _, _, ⟨hp, hq, thenId, followingId, r, hc, ht, hends, hend⟩ =>
    ⟨h _ hp, h _ hq, thenId, followingId, r, hc, stmtMarked_mono h thenBody ht, hends, hend⟩
  | .ifStatement _ thenBody (some elseBody), _, _, _,
      ⟨hp, hq, thenId, followingId, elseId, r, r', hc, ht, hends, hf, hends', hend⟩ =>
    ⟨h _ hp, h _ hq, thenId, followingId, elseId, r, r', hc, stmtMarked_mono h thenBody ht, hends,
      stmtMarked_mono h elseBody hf, hends', hend⟩
  | .whileStatement _ body, _, _, _,
      ⟨hp, hq, condId, bodyId, followingId, r, hentry, hcond, hc, hb, hends, hend⟩ =>
    ⟨h _ hp, h _ hq, condId, bodyId, followingId, r, hentry, h _ hcond, hc, stmtMarked_mono h body hb,
      hends, hend⟩
  | .forStatement _ _ _ body, _, _, _,
      ⟨hp, hq, condId, bodyId, followingId, r, r', r'', hi, hentry, hr, hcond, hc, hb, ht, hr', hends,
        hend⟩ =>
    ⟨h _ hp, h _ hq, condId, bodyId, followingId, r, r', r'', hi, hentry, h _ hr, h _ hcond, hc,
      stmtMarked_mono h body hb, ht, h _ hr', hends, hend⟩
  | .breakStatement, _, _, _, ⟨hp, hq, hs⟩ => ⟨h _ hp, h _ hq, hs⟩
  | .continueStatement, _, _, _, ⟨hp, hq, hs⟩ => ⟨h _ hp, h _ hq, hs⟩
  | .exitStatement, _, _, _, ⟨hp, hq, hs⟩ => ⟨h _ hp, h _ hq, hs⟩
  | .returnStatement, _, _, _, ⟨hp, hq, hs⟩ => ⟨h _ hp, h _ hq, hs⟩
  | .returnValueStatement _, _, _, _, ⟨hp, hq, hs⟩ => ⟨h _ hp, h _ hq, hs⟩
  | .expressionStatement _, _, _, _, ⟨hp, hq, hs⟩ => ⟨h _ hp, h _ hq, hs⟩
  | .empty, _, _, _, ⟨hp, hq, hs⟩ => ⟨h _ hp, h _ hq, hs⟩

theorem stmtsMarked_mono (h : ∀ p, M p → M' p) : ∀ (ss : List TStatement) {env : LoopEnv} {p q : Pos},
    stmtsMarked G M ss env p q → stmtsMarked G M' ss env p q
  | [], _, _, _, hss => hss
  | s :: ss, _, _, _, ⟨r, hs, hss⟩ => ⟨r, stmtMarked_mono h s hs, stmtsMarked_mono h ss hss⟩

end

end

/-! ## What is asked of the expressions -/

mutual

/-- Conditions are as `C` says, expressions without use as `V` and returned values as `W`. -/
def StmtParts (C V W : TExpression → Prop) : TStatement → Prop
  | .block _ stats => StmtsParts C V W stats
  | .ifStatement expr thenBody elseBody =>
    C expr ∧ StmtParts C V W thenBody ∧ ElseParts C V W elseBody
  | .whileStatement cond body => C cond ∧ StmtParts C V W body
  | .forStatement initializer cond iter body =>
    V initializer ∧ C cond ∧ V iter ∧ StmtParts C V W body
  | .expressionStatement expr => V expr
  | .returnValueStatement expr => W expr
  | .returnStatement => True
  | .exitStatement => True
  | .breakStatement => True
  | .continueStatement => True
  | .empty => True

def StmtsParts (C V W : TExpression → Prop) : List TStatement → Prop
  | [] => True
  | s :: ss => StmtParts C V W s ∧ StmtsParts C V W ss

def ElseParts (C V W : TExpression → Prop) : Option TStatement → Prop
  | none => True
  | some s => StmtParts C V W s

end

variable {L : Type}

/-- The expressions of statements keep the base, and returned values can be returned. -/
structure StmtTracking (T : Tracking L) (base : L) (C V W : TExpression → Prop) : Prop where
  cond : ∀ e, C e → CondTracks T (exprCode e).cond
  void : ∀ e, V e → Tracks T Eq (exprCode e).void
  value : ∀ e, W e → ∃ (R : L → L → Prop) (l : L), R base l ∧ Tracks T R (exprCode e).value ∧
    T.leaves (.return (typeOf e)) l
  exit : T.leaves .exit base
  returns : T.leaves (.return .void) base

/-! ## Places and their labels -/

/-- The label at a place of a graph. -/
def Tracking.LabelAt (T : Tracking L) (G : IRGraph IRInstruction) (H : Nat → L) (l : L) (p : Pos) :
    Prop :=
  ∃ b, G.node p.1 = some b ∧ T.walk (b.instrs.take p.2) (H p.1) = some l

/-- Where `continue` and `break` lead there is the base. -/
def EnvBase (H : Nat → L) (base : L) (env : LoopEnv) : Prop :=
  (∀ k, env.continueBlockId = some k → H k = base) ∧ ∀ k, env.breakBlockId = some k → H k = base

variable {T : Tracking L} {base : L} {G : IRGraph IRInstruction} {H : Nat → L}

theorem Tracking.At.labelAt {acc : BlockAccum} {l : L} (h : T.At H acc l) (hh : Holds G acc) :
    T.LabelAt G H l acc.pos := by
  obtain ⟨b, hb, t, ht⟩ := hh
  refine ⟨b, hb, ?_⟩
  have htake : b.instrs.take acc.pos.2 = acc.revInstrs.reverse := by
    rw [← ht]
    exact List.take_left' (List.length_reverse)
  rw [htake]
  exact h

/-- Runs of the code `c` from the base end with the base, close nodes that fit, and put marked code
    into the graph. -/
def Marks (T : Tracking L) (base : L)
    (P : IRGraph IRInstruction → (Pos → Prop) → LoopEnv → PosRel) (c : Code) : Prop :=
  ∀ ⦃st acc acc' st'⦄, c acc st = .ok (acc', st') → EnvOK st → OpenAt st.blockGraph acc.id →
    Labelled st (fun n => n = acc.id) st' (fun n => n = acc'.id) fun G H =>
      EnvBase H base st.env → T.At H acc base →
        T.At H acc' base ∧
          T.AllFit G H st (fun n => n = acc.id) st' (fun n => n = acc'.id) ∧
          (Holds G acc' → Holds G acc ∧ P G (T.LabelAt G H base) st.env acc.pos acc'.pos)

variable {P Q : IRGraph IRInstruction → (Pos → Prop) → LoopEnv → PosRel} {c c1 c2 : Code}

theorem Marks.mono (h : Marks T base P c)
    (hPQ : ∀ G (M : Pos → Prop) env p q, M p → M q → P G M env p q → Q G M env p q) :
    Marks T base Q c := by
  intro st acc acc' st' hrun henv hopen
  refine (h hrun henv hopen).congr (fun _ => Iff.rfl) fun G H hK henvl hat => ?_
  obtain ⟨hat', hfit, hP⟩ := hK henvl hat
  refine ⟨hat', hfit, fun hh => ?_⟩
  obtain ⟨hh0, hcode⟩ := hP hh
  exact ⟨hh0, hPQ _ _ _ _ _ (hat.labelAt hh0) (hat'.labelAt hh) hcode⟩

/-- Code that keeps every label keeps the base. -/
theorem Tracks.marks {P : IRGraph IRInstruction → LoopEnv → PosRel} (h : Tracks T Eq c)
    (hspec : CodeSpec P c) : Marks T base (fun G _ env => P G env) c := by
  intro st acc acc' st' hrun henv hopen
  have hlabels := h hrun henv hopen (Eq.refl base)
  refine (hlabels.and_ran (hspec hrun henv hopen)).congr (fun _ => Iff.rfl) fun G H hK _ hat => ?_
  obtain ⟨hat', hfit⟩ := hK.1 hat
  exact ⟨hat', hfit, hK.2⟩

theorem EnvBase.builds {st st' : BlockingState} {A O : Nat → Prop} (h : EnvBase H base st.env)
    (hb : Builds st A st' O) : EnvBase H base st'.env := by
  rwa [hb.env_eq]

theorem Marks.seq (h1 : Marks T base P c1) (h2 : Marks T base Q c2) :
    Marks T base (fun G M env => andThen (P G M env) (Q G M env)) fun acc => c1 acc >>= c2 := by
  intro st acc acc' st' hrun henv hopen
  obtain ⟨acc1, st1, hr1, hr2⟩ := state_bind_ok.mp hrun
  have r1 := h1 hr1 henv hopen
  have r2 := h2 hr2 (henv.builds r1.1) (r1.opened rfl)
  refine (r1.trans r2 fun _ h => h).congr (fun n => by tauto) fun G H hK henvl hat => ?_
  obtain ⟨hat1, hfit1, hP⟩ := hK.1 henvl hat
  obtain ⟨hat2, hfit2, hQ⟩ := hK.2 (henvl.builds r1.1) hat1
  refine ⟨hat2, (hfit1.trans hfit2).congr fun n => by tauto, fun hh => ?_⟩
  obtain ⟨hh1, hq⟩ := hQ hh
  obtain ⟨hh0, hp⟩ := hP hh1
  rw [r1.1.env_eq] at hq
  exact ⟨hh0, acc1.pos, hp, hq⟩

/-! ## Blocks that are committed -/

/-- A block that is committed with a default edge. -/
theorem commitDefault_labelled {st st' : BlockingState} {acc : BlockAccum} {u : Unit} {k : Nat}
    (base : L) (h : commitBasicBlock [(.default, k)] acc st = .ok (u, st'))
    (hopen : OpenAt st.blockGraph acc.id) (hk : k < st.blockGraph.size) :
    st'.blockGraph.size = st.blockGraph.size ∧
      Labelled st (fun n => n = acc.id) st' (fun _ => False) fun G H =>
        (H k = base → T.At H acc base → T.AllFit G H st (fun n => n = acc.id) st' fun _ => False) ∧
          Holds G acc ∧ EndsAt G acc.pos [(.default, k)] := by
  have hshape : EdgeShape [(IREdge.default, k)] := .inr (.inl ⟨_, rfl⟩)
  obtain ⟨hsize, hl⟩ := commitBasicBlock_labelled base h hopen hshape (by simpa using hk)
  obtain ⟨-, hr⟩ := commitBasicBlock_ran h hopen hshape (by simpa using hk)
  refine ⟨hsize, (hl.and_ran hr).congr (fun _ => Iff.rfl) fun G H hK => ⟨fun hkl hat => ?_, hK.2⟩⟩
  exact allFit_commit hsize hK.1 hat (hkl ▸ .jump)

/-- Code whose last block is committed with a default edge. -/
theorem Marks.thenCommit (h : Marks T base P c) {st st' : BlockingState} {acc : BlockAccum} {u : Unit}
    {k : Nat} (hrun : (c acc >>= commitBasicBlock [(.default, k)]) st = .ok (u, st')) (henv : EnvOK st)
    (hopen : OpenAt st.blockGraph acc.id) (hk : k < st.blockGraph.size) :
    Labelled st (fun n => n = acc.id) st' (fun _ => False) fun G H =>
      EnvBase H base st.env → H k = base → T.At H acc base →
        T.AllFit G H st (fun n => n = acc.id) st' (fun _ => False) ∧ Holds G acc ∧
          ∃ r, P G (T.LabelAt G H base) st.env acc.pos r ∧ T.LabelAt G H base r ∧
            EndsAt G r [(.default, k)] := by
  obtain ⟨acc1, st1, hr1, hr2⟩ := state_bind_ok.mp hrun
  have r1 := h hr1 henv hopen
  obtain ⟨-, r2⟩ := commitDefault_labelled (T := T) base hr2 (r1.opened rfl) (hk.trans_le r1.1.size_le)
  refine (r1.trans r2 fun _ h => h).congr (fun n => by tauto) fun G H hK henvl hkl hat => ?_
  obtain ⟨hat1, hfit1, hP⟩ := hK.1 henvl hat
  obtain ⟨hfit2, hh1, hends⟩ := hK.2
  obtain ⟨hh0, hcode⟩ := hP hh1
  exact ⟨(hfit1.trans (hfit2 hkl hat1)).congr fun n => by tauto, hh0, acc1.pos, hcode,
    hat1.labelAt hh1, hends⟩

/-- The body of a loop. -/
theorem Marks.loopBody (h : Marks T base P c) {st st' : BlockingState} {acc : BlockAccum} {u : Unit}
    {condId followingId : Nat}
    (hrun : withLoopEnvironment acc.id followingId (c acc >>= commitBasicBlock [(.default, condId)]) st =
      .ok (u, st'))
    (hopen : OpenAt st.blockGraph acc.id) (hcond : condId < st.blockGraph.size)
    (hfollow : followingId < st.blockGraph.size) :
    Labelled st (fun n => n = acc.id) st' (fun _ => False) fun G H =>
      H condId = base → H followingId = base → H acc.id = base → T.At H acc base →
        T.AllFit G H st (fun n => n = acc.id) st' (fun _ => False) ∧
          ∃ r, P G (T.LabelAt G H base) ⟨some acc.id, some followingId⟩ acc.pos r ∧
            T.LabelAt G H base r ∧ EndsAt G r [(.default, condId)] := by
  obtain ⟨st1, hbody, rfl⟩ := withLoopEnvironment_ok hrun
  have henv : EnvOK ⟨st.blockGraph, some acc.id, some followingId⟩ := by
    refine ⟨?_, ?_⟩ <;> rintro k ⟨rfl⟩
    · exact hopen.1
    · exact hfollow
  obtain ⟨hb, label, hfin⟩ := h.thenCommit hbody henv hopen hcond
  refine ⟨⟨rfl, rfl, hb.size_le, hb.beyond, hb.frame, hb.done, hb.opened⟩, label,
    fun G H hG hH hcondl hfollowl hbodyl hat => ?_⟩
  have henvl : EnvBase H base ⟨some acc.id, some followingId⟩ := by
    refine ⟨?_, ?_⟩ <;> rintro k ⟨rfl⟩
    · exact hbodyl
    · exact hfollowl
  obtain ⟨hfit, -, r, hcode, hr, hends⟩ := hfin G H hG hH henvl hcondl hat
  exact ⟨hfit, r, hcode, hr, hends⟩

/-- A condition with the places it leads to. -/
theorem CondTracks.labelled {d : CondCode} {R : IRGraph IRInstruction → CondRel} (h : CondTracks T d)
    (hspec : CondSpec R d) {ifId elseId : Nat} {st st' : BlockingState} {acc : BlockAccum} {u : Unit}
    (hrun : d ifId elseId acc st = .ok (u, st')) (henv : EnvOK st) (hopen : OpenAt st.blockGraph acc.id)
    (hif : ifId < st.blockGraph.size) (helse : elseId < st.blockGraph.size) (base : L) :
    Labelled st (fun n => n = acc.id) st' (fun _ => False) fun G H =>
      (T.At H acc base → H ifId = base → H elseId = base →
        T.AllFit G H st (fun n => n = acc.id) st' fun _ => False) ∧
        Holds G acc ∧ R G acc.pos ifId elseId :=
  (h hrun henv hopen hif helse base).and_ran (hspec hrun henv hopen hif helse)

/-- A committed block, with dead code after it. -/
theorem deadAfter_labelled {st st1 st' : BlockingState} {acc acc' : BlockAccum} (T : Tracking L)
    (base : L) {K : IRGraph IRInstruction → (Nat → L) → Prop}
    (h : Labelled st (fun n => n = acc.id) st1 (fun _ => False) K)
    (hnew : newBasicBlock st1 = .ok (acc', st')) :
    acc'.pos.2 = 0 ∧ Labelled st (fun n => n = acc.id) st' (fun n => n = acc'.id) fun G H =>
      K G H ∧ T.At H acc' base ∧ (T.AllFit G H st (fun n => n = acc.id) st1 (fun _ => False) →
        T.AllFit G H st (fun n => n = acc.id) st' (fun n => n = acc'.id)) := by
  obtain ⟨rfl, -, hn⟩ := newBasicBlock_labelled T base hnew
  refine ⟨rfl, (h.trans hn fun _ h => h.elim).congr (by simp) fun G H hK => ?_⟩
  obtain ⟨hK, hat, -, hfit⟩ := hK
  exact ⟨hK, hat, fun h => (h.trans hfit).congr (by simp)⟩

theorem jump_marks {target : BlockingState → Option Nat} {e : CompileError}
    (htarget : ∀ st k, EnvOK st → target st = some k → k < st.blockGraph.size) {f : LoopEnv → Option Nat}
    (hf : ∀ st : BlockingState, f st.env = target st)
    (hbase : ∀ (H : Nat → L) env k, EnvBase H base env → f env = some k → H k = base) :
    Marks T base (fun G _ env => jumpIn G (f env)) (fun acc => do
      let id := target (← get)
      match id with
      | none => throw e
      | some id =>
        commitBasicBlock [(.default, id)] acc
        newBasicBlock) := by
  intro st acc acc' st' hrun henv hopen
  obtain ⟨_, _, hget, hrun⟩ := state_bind_ok.mp hrun
  cases state_get_ok.mp hget
  cases hk : target st with
  | none =>
    simp only [hk] at hrun
    cases hrun
  | some k =>
    simp only [hk] at hrun
    obtain ⟨u, st1, hcommit, hnew⟩ := state_bind_ok.mp hrun
    obtain ⟨-, hc⟩ := commitDefault_labelled (T := T) base hcommit hopen (htarget st k henv hk)
    obtain ⟨hzero, hr⟩ := deadAfter_labelled T base hc hnew
    refine hr.congr (fun _ => Iff.rfl) fun G H hK henvl hat => ?_
    obtain ⟨⟨hfit, hh, hends⟩, hat', hdead⟩ := hK
    have hkl : H k = base := hbase H _ k henvl ((hf st).trans hk)
    exact ⟨hat', hdead (hfit hkl hat), fun _ => ⟨hh, ⟨k, (hf st).trans hk, hends⟩, hzero⟩⟩

/-- Code that leaves the method. -/
theorem leave_marks {R : L → L → Prop} {P : IRGraph IRInstruction → LoopEnv → PosRel}
    {i : IRInstruction} {l : L} (h : Tracks T R c) (hspec : CodeSpec P c) (hR : R base l)
    (hl : T.leaves i l) :
    Marks T base (fun G _ env => leaveIn G (andThen (P G env) (InstrsAt G [i]))) (fun acc => do
      let acc ← c acc
      commitBasicBlock [] (← appendInstructionsM [i] acc)
      newBasicBlock) := by
  intro st acc acc' st' hrun henv hopen
  have hrun' : (do
      commitBasicBlock [] (← (fun acc => c acc >>= appendInstructionsM [i]) acc)
      newBasicBlock : ThrowsBlockingState BlockAccum) st = .ok (acc', st') := by
    simpa only [bind_assoc] using! hrun
  have hcode := leave_spec (hspec.seq (appendInstructionsM_spec [i])) hrun' henv hopen
  simp only [state_bind_ok] at hrun
  obtain ⟨acc1, st1, hr1, acc2, st2, hr2, u, st3, hcommit, hnew⟩ := hrun
  obtain ⟨rfl, rfl⟩ := Prod.mk.inj (state_pure_ok.mp hr2)
  have r1 := h hr1 henv hopen hR
  obtain ⟨hsize, r2⟩ := commitBasicBlock_labelled l hcommit (r1.opened rfl) (.inl rfl) (by simp)
  have r12 : Labelled st (fun n => n = acc.id) st3 (fun _ => False) fun G H =>
      T.At H acc base → T.AllFit G H st (fun n => n = acc.id) st3 fun _ => False := by
    refine (r1.trans r2 fun _ h => h).congr (fun n => by simp [appendInstructions])
      fun G H hK hat => ?_
    obtain ⟨hat1, hfit1⟩ := hK.1 hat
    have hnode := hK.2
    have hfit2 : T.AllFit G H st2 (fun n => n = acc1.id) st3 fun _ => False := by
      intro n hn hreg _
      rcases hreg with rfl | hge
      · refine ⟨_, hnode, .ends ?_ hat1 hl⟩
        simp [appendInstructions]
      · omega
    exact (hfit1.trans hfit2).congr fun n => by tauto
  obtain ⟨-, hr⟩ := deadAfter_labelled T base r12 hnew
  refine (hr.and_ran hcode).congr (fun _ => Iff.rfl) fun G H hK _ hat => ?_
  obtain ⟨⟨hfit, hat', hdead⟩, hcode⟩ := hK
  exact ⟨hat', hdead (hfit hat), hcode⟩

/-- An instruction that leaves the method from the base. -/
theorem leaveNow_marks {i : IRInstruction} (hl : T.leaves i base) :
    Marks T base (fun G M _ p q => M p ∧ M q ∧ leaveIn G (InstrsAt G [i]) p q) (fun acc => do
      commitBasicBlock [] (← appendInstructionsM [i] acc)
      newBasicBlock) := by
  have h := leave_marks pure_tracks pure_spec (Eq.refl base) hl
  simp only [pure_bind] at h
  refine h.mono fun G M _ p q hp hq hleave => ⟨hp, hq, ?_⟩
  obtain ⟨⟨r, ⟨p', rfl, hinstr⟩, hends⟩, hzero⟩ := hleave
  exact ⟨⟨r, hinstr, hends⟩, hzero⟩

/-! ## Statements -/

section Statements

variable {C V W : TExpression → Prop}

mutual

/-- **Statements keep the base**, and put marked code into the graph. -/
theorem buildIRStatement_marks (hT : StmtTracking T base C V W) : ∀ s, StmtParts C V W s →
    Marks T base (fun G M env => stmtMarked G M s env) (buildIRStatement s)
  | .block _ stats, hs =>
    (buildIRStatements_marks hT stats hs).mono fun _ _ _ _ _ hp hq h => ⟨hp, hq, h⟩
  | .ifStatement expr thenBody none, ⟨he, ht, _⟩ => by
    refine Marks.mono (P := fun G M env p q => ∃ thenId followingId r,
        (exprIn G expr).cond p thenId followingId ∧ stmtMarked G M thenBody env (thenId, 0) r ∧
        EndsAt G r [(.default, followingId)] ∧ q = (followingId, 0)) ?_
      fun _ _ _ _ _ hp hq h => ⟨hp, hq, h⟩
    intro st acc acc' st' hrun henv hopen
    simp only [buildIRStatement, state_bind_ok] at hrun
    obtain ⟨thenAcc, st1, hnew1, following, st2, hnew2, hrun⟩ := hrun
    obtain ⟨u1, st3, hcond, thenEnd, st4, hthen, u2, st5, hcommit, hret⟩ := hrun
    obtain ⟨rfl, hsize1, n1⟩ := newBasicBlock_labelled T base hnew1
    obtain ⟨rfl, hsize2, n2⟩ := newBasicBlock_labelled T base hnew2
    obtain ⟨rfl, rfl⟩ := Prod.mk.inj (state_pure_ok.mp hret)
    have hacc := hopen.1
    have r2 := ((Labelled.refl T base st hopen).trans n1 (by simp)).trans n2 (by simp)
    have r3 := (hT.cond expr he).labelled (exprCode_spec expr).cond hcond (henv.builds r2.1)
      (r2.opened (by simp)) (by simp only; omega) (by simp only; omega) base
    have r03 := r2.trans r3 (by simp)
    have hle := r3.1.size_le
    have r4 := (buildIRStatement_marks hT thenBody ht).thenCommit
      (state_bind_ok.mpr ⟨_, _, hthen, hcommit⟩) (henv.builds r03.1)
      (r03.opened (by simp; omega)) (by simp only; omega)
    refine (r03.trans r4 (by simp; omega)).congr (O := fun n => n = st1.blockGraph.size) ?_
      fun G H hK henvl hat => ?_
    · intro n
      simp
      omega
    · obtain ⟨⟨⟨⟨f0, hat1, hl1, f1⟩, hat2, hl2, f2⟩, f3, hh, hc⟩, f4⟩ := hK
      obtain ⟨f4, -, r, hr, -, hends⟩ := f4 (henvl.builds r03.1) hl2 hat1
      rw [r03.1.env_eq] at hr
      refine ⟨hat2, ((((f0.trans f1).trans f2).trans (f3 hat hl1 hl2)).trans f4).congr ?_, fun _ =>
        ⟨hh, _, _, r, hc, hr, hends, rfl⟩⟩
      intro n
      simp
      omega
  | .ifStatement expr thenBody (some elseBody), ⟨he, ht, hf⟩ => by
    refine Marks.mono (P := fun G M env p q => ∃ thenId followingId elseId r r',
        (exprIn G expr).cond p thenId elseId ∧ stmtMarked G M thenBody env (thenId, 0) r ∧
        EndsAt G r [(.default, followingId)] ∧ stmtMarked G M elseBody env (elseId, 0) r' ∧
        EndsAt G r' [(.default, followingId)] ∧ q = (followingId, 0)) ?_
      fun _ _ _ _ _ hp hq h => ⟨hp, hq, h⟩
    intro st acc acc' st' hrun henv hopen
    simp only [buildIRStatement, state_bind_ok] at hrun
    obtain ⟨thenAcc, st1, hnew1, following, st2, hnew2, elseAcc, st3, hnew3, hrun⟩ := hrun
    obtain ⟨u1, st4, hcond, thenEnd, st5, hthen, u2, st6, hcommit, hrun⟩ := hrun
    obtain ⟨elseEnd, st7, helse, u3, st8, hcommit', hret⟩ := hrun
    obtain ⟨rfl, hsize1, n1⟩ := newBasicBlock_labelled T base hnew1
    obtain ⟨rfl, hsize2, n2⟩ := newBasicBlock_labelled T base hnew2
    obtain ⟨rfl, hsize3, n3⟩ := newBasicBlock_labelled T base hnew3
    obtain ⟨rfl, rfl⟩ := Prod.mk.inj (state_pure_ok.mp hret)
    have hacc := hopen.1
    have r3 := (((Labelled.refl T base st hopen).trans n1 (by simp)).trans n2 (by simp)).trans n3
      (by simp)
    have r4 := (hT.cond expr he).labelled (exprCode_spec expr).cond hcond (henv.builds r3.1)
      (r3.opened (by simp)) (by simp only; omega) (by simp only; omega) base
    have r04 := r3.trans r4 (by simp)
    have hle := r4.1.size_le
    have r5 := (buildIRStatement_marks hT thenBody ht).thenCommit
      (state_bind_ok.mpr ⟨_, _, hthen, hcommit⟩) (henv.builds r04.1)
      (r04.opened (by simp; omega)) (by simp only; omega)
    have r05 := r04.trans r5 (by simp; omega)
    have hle' := r5.1.size_le
    have r6 := (buildIRStatement_marks hT elseBody hf).thenCommit
      (state_bind_ok.mpr ⟨_, _, helse, hcommit'⟩) (henv.builds r05.1)
      (r05.opened (by simp; omega)) (by simp only; omega)
    refine (r05.trans r6 (by simp; omega)).congr (O := fun n => n = st1.blockGraph.size) ?_
      fun G H hK henvl hat => ?_
    · intro n
      simp
      omega
    · obtain ⟨⟨⟨⟨⟨f0, hat1, hl1, f1⟩, hat2, hl2, f2⟩, hat3, hl3, f3⟩, f4, hh, hc⟩, f5⟩ := hK.1
      obtain ⟨f5, -, r, hr, -, hends⟩ := f5 (henvl.builds r04.1) hl2 hat1
      obtain ⟨f6, -, r', hr', -, hends'⟩ := hK.2 (henvl.builds r05.1) hl2 hat3
      rw [r04.1.env_eq] at hr
      rw [r05.1.env_eq] at hr'
      refine ⟨hat2, ((((((f0.trans f1).trans f2).trans f3).trans (f4 hat hl1 hl3)).trans f5).trans
        f6).congr ?_, fun _ => ⟨hh, _, _, _, r, r', hc, hr, hends, hr', hends', rfl⟩⟩
      intro n
      simp
      omega
  | .whileStatement cond body, ⟨he, hb⟩ => by
    refine Marks.mono (P := fun G M env p q => ∃ condId bodyId followingId r,
        EndsAt G p [(.default, condId)] ∧ M (condId, 0) ∧
        (exprIn G cond).cond (condId, 0) bodyId followingId ∧
        stmtMarked G M body ⟨some bodyId, some followingId⟩ (bodyId, 0) r ∧
        EndsAt G r [(.default, condId)] ∧ q = (followingId, 0)) ?_
      fun _ _ _ _ _ hp hq h => ⟨hp, hq, h⟩
    intro st acc acc' st' hrun henv hopen
    simp only [buildIRStatement, state_bind_ok] at hrun
    obtain ⟨condAcc, st1, hnew1, bodyAcc, st2, hnew2, following, st3, hnew3, hrun⟩ := hrun
    obtain ⟨u1, st4, hcommit, u2, st5, hcond, u3, st6, hbody, hret⟩ := hrun
    obtain ⟨rfl, hsize1, n1⟩ := newBasicBlock_labelled T base hnew1
    obtain ⟨rfl, hsize2, n2⟩ := newBasicBlock_labelled T base hnew2
    obtain ⟨rfl, hsize3, n3⟩ := newBasicBlock_labelled T base hnew3
    obtain ⟨rfl, rfl⟩ := Prod.mk.inj (state_pure_ok.mp hret)
    have hacc := hopen.1
    have r3 := (((Labelled.refl T base st hopen).trans n1 (by simp)).trans n2 (by simp)).trans n3
      (by simp)
    obtain ⟨hsize4, r4⟩ := commitDefault_labelled (T := T) base hcommit (r3.opened (by simp))
      (by simp only; omega)
    have r04 := r3.trans r4 (by simp)
    have r5 := (hT.cond cond he).labelled (exprCode_spec cond).cond hcond (henv.builds r04.1)
      (r04.opened (by simp; omega)) (by simp only; omega) (by simp only; omega) base
    have r05 := r04.trans r5 (by simp; omega)
    have hle := r5.1.size_le
    have r6 := (buildIRStatement_marks hT body hb).loopBody hbody (r05.opened (by simp; omega))
      (by simp only; omega) (by simp only; omega)
    refine (r05.trans r6 (by simp; omega)).congr (O := fun n => n = st2.blockGraph.size) ?_
      fun G H hK henvl hat => ?_
    · intro n
      simp
      omega
    · obtain ⟨⟨⟨⟨⟨⟨f0, hat1, hl1, f1⟩, hat2, hl2, f2⟩, hat3, hl3, f3⟩, f4, hh, hentry⟩, f5, hhc, hc⟩,
        f6⟩ := hK
      obtain ⟨f6, r, hr, -, hends⟩ := f6 hl1 hl3 hl2 hat2
      refine ⟨hat3, ((((((f0.trans f1).trans f2).trans f3).trans (f4 hl1 hat)).trans
        (f5 hat1 hl2 hl3)).trans f6).congr ?_, fun _ =>
          ⟨hh, _, _, _, r, hentry, hat1.labelAt hhc, hc, hr, hends, rfl⟩⟩
      intro n
      simp
      omega
  | .forStatement initializer cond iter body, ⟨hi, he, hit, hb⟩ => by
    refine Marks.mono (P := fun G M env p q => ∃ condId bodyId followingId r r' r'',
        (exprIn G initializer).void p r ∧ EndsAt G r [(.default, condId)] ∧ M r ∧ M (condId, 0) ∧
        (exprIn G cond).cond (condId, 0) bodyId followingId ∧
        stmtMarked G M body ⟨some bodyId, some followingId⟩ (bodyId, 0) r' ∧
        (exprIn G iter).void r' r'' ∧ M r'' ∧ EndsAt G r'' [(.default, condId)] ∧
        q = (followingId, 0)) ?_
      fun _ _ _ _ _ hp hq h => ⟨hp, hq, h⟩
    intro st acc acc' st' hrun henv hopen
    simp only [buildIRStatement, state_bind_ok] at hrun
    obtain ⟨condAcc, st1, hnew1, bodyAcc, st2, hnew2, following, st3, hnew3, hrun⟩ := hrun
    obtain ⟨initEnd, st4, hinit, u1, st5, hcommit, u2, st6, hcond, u3, st7, hbody, hret⟩ := hrun
    obtain ⟨rfl, hsize1, n1⟩ := newBasicBlock_labelled T base hnew1
    obtain ⟨rfl, hsize2, n2⟩ := newBasicBlock_labelled T base hnew2
    obtain ⟨rfl, hsize3, n3⟩ := newBasicBlock_labelled T base hnew3
    obtain ⟨rfl, rfl⟩ := Prod.mk.inj (state_pure_ok.mp hret)
    have hacc := hopen.1
    have r3 := (((Labelled.refl T base st hopen).trans n1 (by simp)).trans n2 (by simp)).trans n3
      (by simp)
    have hinitMarks : Marks T base _ _ := (hT.void initializer hi).marks (exprCode_spec initializer).void
    have r4 := hinitMarks.thenCommit
      (state_bind_ok.mpr ⟨_, _, hinit, hcommit⟩) (henv.builds r3.1) (r3.opened (by simp))
      (by simp only; omega)
    have r04 := r3.trans r4 (by simp)
    have hle := r4.1.size_le
    have r5 := (hT.cond cond he).labelled (exprCode_spec cond).cond hcond (henv.builds r04.1)
      (r04.opened (by simp; omega)) (by simp only; omega) (by simp only; omega) base
    have r05 := r04.trans r5 (by simp; omega)
    have hle' := r5.1.size_le
    have r6 := ((buildIRStatement_marks hT body hb).seq
        ((hT.void iter hit).marks (exprCode_spec iter).void)).loopBody
      (by simpa only [bind_assoc] using! hbody) (r05.opened (by simp; omega)) (by omega) (by omega)
    refine (r05.trans r6 (by simp; omega)).congr (O := fun n => n = st2.blockGraph.size) ?_
      fun G H hK henvl hat => ?_
    · intro n
      simp
      omega
    · obtain ⟨⟨⟨⟨⟨⟨f0, hat1, hl1, f1⟩, hat2, hl2, f2⟩, hat3, hl3, f3⟩, f4⟩, f5, hhc, hc⟩, f6⟩ := hK
      obtain ⟨f4, hh, r, hr, hmr, hentry⟩ := f4 (henvl.builds r3.1) hl1 hat
      obtain ⟨f6, r'', ⟨r', hr', hiter⟩, hmr'', hends⟩ := f6 hl1 hl3 hl2 hat2
      refine ⟨hat3, ((((((f0.trans f1).trans f2).trans f3).trans f4).trans
        (f5 hat1 hl2 hl3)).trans f6).congr ?_, fun _ => ⟨hh, _, _, _, r, r', r'', hr, hentry, hmr,
          hat1.labelAt hhc, hc, hr', hiter, hmr'', hends, rfl⟩⟩
      intro n
      simp
      omega
  | .breakStatement, _ =>
    (jump_marks (fun st k henv hk => henv.2 k hk) (fun _ => rfl) fun _ _ k h hk => h.2 k hk).mono
      fun _ _ _ _ _ hp hq h => ⟨hp, hq, h⟩
  | .continueStatement, _ =>
    (jump_marks (fun st k henv hk => henv.1 k hk) (fun _ => rfl) fun _ _ k h hk => h.1 k hk).mono
      fun _ _ _ _ _ hp hq h => ⟨hp, hq, h⟩
  | .exitStatement, _ => leaveNow_marks hT.exit
  | .returnStatement, _ => leaveNow_marks hT.returns
  | .returnValueStatement expr, he => by
    obtain ⟨R, l, hR, htracks, hl⟩ := hT.value expr he
    exact (leave_marks htracks (exprCode_spec expr).value hR hl).mono
      fun _ _ _ _ _ hp hq h => ⟨hp, hq, h⟩
  | .expressionStatement expr, he =>
    ((hT.void expr he).marks (exprCode_spec expr).void).mono fun _ _ _ _ _ hp hq h => ⟨hp, hq, h⟩
  | .empty, _ => (pure_tracks.marks pure_spec).mono fun _ _ _ _ _ hp hq h => ⟨hp, hq, h⟩

theorem buildIRStatements_marks (hT : StmtTracking T base C V W) : ∀ ss, StmtsParts C V W ss →
    Marks T base (fun G M env => stmtsMarked G M ss env) (buildIRStatements ss)
  | [], _ => pure_tracks.marks pure_spec
  | s :: ss, ⟨hs, hss⟩ => (buildIRStatement_marks hT s hs).seq (buildIRStatements_marks hT ss hss)

end

/-! ## Bodies -/

/-- The body of a method with its last block still open. -/
def openBody (stats : List TStatement) : ThrowsBlockingState BlockAccum := do
  let acc ← newBasicBlock
  buildIRStatements stats acc

theorem buildBody_eq (stats : List TStatement) :
    buildBody stats = openBody stats >>= commitBasicBlock [] := by
  rw [buildBody, openBody, bind_assoc]

/-- **The built graph has a labelling**: the entry and the end have the base, every block but the last
    fits, and the code of the body is marked wherever it has the base. -/
theorem buildBody_labelled (hT : StmtTracking T base C V W) {stats : List TStatement}
    (hs : StmtsParts C V W stats) {u : Unit} {st : BlockingState}
    (h : buildBody stats emptyState = .ok (u, st)) :
    ∃ acc st1, openBody stats emptyState = .ok (acc, st1) ∧ acc.id < st.blockGraph.size ∧
      ∃ H : Nat → L, H 0 = base ∧
        stmtsMarked st.blockGraph (T.LabelAt st.blockGraph H base) stats ⟨none, none⟩ (0, 0) acc.pos ∧
        st.blockGraph.node acc.id = some ⟨acc.revInstrs.reverse, []⟩ ∧ T.At H acc base ∧
        ∀ n b, st.blockGraph.node n = some b → n ≠ acc.id → T.Fits H b (H n) := by
  rw [buildBody_eq] at h
  obtain ⟨acc, st1, hopenBody, hcommit⟩ := state_bind_ok.mp h
  have hbuild := hopenBody
  simp only [openBody, state_bind_ok] at hbuild
  obtain ⟨acc0, st0, hnew, hbody⟩ := hbuild
  obtain ⟨rfl, hsize0, r0⟩ := newBasicBlock_labelled T base hnew
  have henv : EnvOK emptyState := ⟨fun _ h => (nomatch h), fun _ h => (nomatch h)⟩
  have r1 := buildIRStatements_marks hT stats hs hbody (henv.builds r0.1) (r0.opened rfl)
  have hopen := r1.opened rfl
  obtain ⟨hsize, r2⟩ := commitBasicBlock_labelled base hcommit hopen (.inl rfl) (by simp)
  have r := (r0.trans r1 fun _ h => h).trans r2 fun n hn => .inr hn
  obtain ⟨hb, label, hK⟩ := r
  refine ⟨acc, st1, hopenBody, hsize ▸ hopen.1, label, ?_⟩
  obtain ⟨⟨⟨hat0, hl0, hfit0⟩, hmarks⟩, hnode⟩ := hK st.blockGraph label (fun _ _ _ _ => rfl)
    fun _ _ _ => rfl
  have henvBase : EnvBase label base st0.env := by
    rw [r0.1.env_eq]
    exact ⟨fun _ h => (nomatch h), fun _ h => (nomatch h)⟩
  obtain ⟨hat, hfit, hcode⟩ := hmarks henvBase hat0
  have hholds : Holds st.blockGraph acc := ⟨_, hnode, List.prefix_refl _⟩
  obtain ⟨-, hcode⟩ := hcode hholds
  rw [r0.1.env_eq] at hcode
  refine ⟨hl0, hcode, hnode, hat, fun n b hnodeb hne => ?_⟩
  have hlt : n < st1.blockGraph.size := by
    by_contra hge
    have hbeyond := hb.beyond n (hsize ▸ Nat.not_lt.mp hge)
    rw [hnodeb] at hbeyond
    cases hbeyond
  obtain ⟨b', hb', hfits⟩ := (hfit0.trans hfit) n hlt (.inr (Nat.zero_le n)) (by simp [hne])
  obtain rfl := Option.some.inj (hnodeb.symm.trans hb')
  exact hfits

end Statements

end KeyboardFirmware.Compiler
