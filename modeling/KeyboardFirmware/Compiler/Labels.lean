/-
  Labels of blocks, found while the graph is built.

  A `Tracking` says what instructions do to a label; a labelling of the nodes fits a graph when the
  instructions of every block take its label to the labels of the blocks its edges lead to.  The
  builder makes new nodes and commits each of them once, so a labelling can be chosen while it runs:
  `Labelled` is a run with labels for the nodes it makes, and the codes of expressions and statements
  compose as their runs do.
-/
import KeyboardFirmware.Compiler.BuildIn

namespace KeyboardFirmware.Compiler

/-! ## Labels -/

/-- What an instruction does to a label, what the look does that a conditional edge takes, and which
    instructions leave the method. -/
structure Tracking (L : Type) where
  step : IRInstruction → L → Option L
  test : L → Option L
  leaves : IRInstruction → L → Prop

namespace Tracking

variable {L : Type}

/-- What instructions do, one after the other. -/
def walk (T : Tracking L) : List IRInstruction → L → Option L
  | [], l => some l
  | i :: is, l => (T.step i l).bind (T.walk is)

/-- The edges of a block lead to nodes with the label it ends with. -/
inductive Leads (T : Tracking L) (H : Nat → L) : List (IREdge × Nat) → L → Prop
  | jump {d : Nat} : Leads T H [(.default, d)] (H d)
  | branch {c : Vm.CondOp} {i d : Nat} {l : L} : T.test l = some (H d) → H i = H d →
      Leads T H [(.conditional c, i), (.default, d)] l

/-- A block that starts with the label `l` goes on where the labels say, or leaves the method. -/
inductive Fits (T : Tracking L) (H : Nat → L) (b : IRNode IRInstruction) (l : L) : Prop
  | goesOn {l' : L} : T.walk b.instrs l = some l' → T.Leads H b.edges l' → Fits T H b l
  | ends {is : List IRInstruction} {i : IRInstruction} {l' : L} : b = ⟨is ++ [i], []⟩ →
      T.walk is l = some l' → T.leaves i l' → Fits T H b l

/-- The instructions collected so far have the label `l` behind them. -/
def At (T : Tracking L) (H : Nat → L) (acc : BlockAccum) (l : L) : Prop :=
  T.walk acc.revInstrs.reverse (H acc.id) = some l

/-- The nodes that a run has closed fit. -/
def AllFit (T : Tracking L) (G : IRGraph IRInstruction) (H : Nat → L) (st : BlockingState)
    (A : Nat → Prop) (st' : BlockingState) (O : Nat → Prop) : Prop :=
  ∀ n < st'.blockGraph.size, A n ∨ st.blockGraph.size ≤ n → ¬ O n →
    ∃ b, G.node n = some b ∧ T.Fits H b (H n)

variable {T : Tracking L} {H : Nat → L} {G : IRGraph IRInstruction}

theorem walk_append (is js : List IRInstruction) (l : L) :
    T.walk (is ++ js) l = (T.walk is l).bind (T.walk js) := by
  induction is generalizing l with
  | nil => rfl
  | cons i is ih =>
    rw [List.cons_append, walk, walk]
    cases T.step i l with
    | none => rfl
    | some l' => exact ih l'

theorem AllFit.trans {st st1 st2 : BlockingState} {A A1 O1 O2 : Nat → Prop}
    (h1 : T.AllFit G H st A st1 O1) (h2 : T.AllFit G H st1 A1 st2 O2) :
    T.AllFit G H st A st2 fun n => (O1 n ∧ ¬ A1 n) ∨ O2 n := by
  intro n hn hreg hO
  have hO2 : ¬ O2 n := fun h => hO (.inr h)
  by_cases hA1 : A1 n
  · exact h2 n hn (.inl hA1) hO2
  · by_cases hlt : n < st1.blockGraph.size
    · exact h1 n hlt hreg fun h => hO (.inl ⟨h, hA1⟩)
    · exact h2 n hn (.inr (Nat.not_lt.mp hlt)) hO2

theorem AllFit.congr {st st1 : BlockingState} {A O O' : Nat → Prop} (h : T.AllFit G H st A st1 O)
    (hO : ∀ n, O n ↔ O' n) : T.AllFit G H st A st1 O' := by
  rwa [show O' = O from funext fun n => propext (hO n).symm]

/-- Where a run closes no node there is nothing to fit. -/
theorem AllFit.of_open {st st1 : BlockingState} {A O : Nat → Prop}
    (h : ∀ n < st1.blockGraph.size, A n ∨ st.blockGraph.size ≤ n → O n) : T.AllFit G H st A st1 O :=
  fun n hn hreg hO => absurd (h n hn hreg) hO

theorem AllFit.refl (T : Tracking L) (G : IRGraph IRInstruction) (H : Nat → L) (st : BlockingState)
    (A : Nat → Prop) : T.AllFit G H st A st A :=
  .of_open fun _ hn hreg => hreg.elim id fun hge => absurd hn (Nat.not_lt.mpr hge)

end Tracking

/-! ## Runs with labels -/

variable {L : Type} {T : Tracking L}

/-- A run with labels for the nodes it makes, and a property of every final graph and labelling. -/
def Labelled (st : BlockingState) (A : Nat → Prop) (st' : BlockingState) (O : Nat → Prop)
    (K : IRGraph IRInstruction → (Nat → L) → Prop) : Prop :=
  Builds st A st' O ∧ ∃ label : Nat → L, ∀ G H, Final G st A st' O →
    (∀ n, st.blockGraph.size ≤ n → n < st'.blockGraph.size → H n = label n) → K G H

namespace Labelled

variable {st st1 st2 : BlockingState} {A A1 O1 O2 : Nat → Prop}
  {K K1 K2 : IRGraph IRInstruction → (Nat → L) → Prop}

/-- A run that makes no nodes needs no labels. -/
theorem of_ran {J : IRGraph IRInstruction → Prop} (l : L) (h : Ran st A st1 O1 J) :
    Labelled st A st1 O1 fun G (_ : Nat → L) => J G :=
  ⟨h.1, fun _ => l, fun G _ hG _ => h.2 G hG⟩

theorem and_ran {J : IRGraph IRInstruction → Prop} (h : Labelled st A st1 O1 K)
    (hJ : Ran st A st1 O1 J) : Labelled st A st1 O1 fun G H => K G H ∧ J G := by
  obtain ⟨hb, label, hK⟩ := h
  exact ⟨hb, label, fun G H hG hH => ⟨hK G H hG hH, hJ.2 G hG⟩⟩

theorem trans (h1 : Labelled st A st1 O1 K1) (h2 : Labelled st1 A1 st2 O2 K2)
    (hsub : ∀ n, A1 n → O1 n) :
    Labelled st A st2 (fun n => (O1 n ∧ ¬ A1 n) ∨ O2 n) fun G H => K1 G H ∧ K2 G H := by
  obtain ⟨hb1, label1, hK1⟩ := h1
  obtain ⟨hb2, label2, hK2⟩ := h2
  refine ⟨hb1.trans hb2 hsub, fun n => if n < st1.blockGraph.size then label1 n else label2 n,
    fun G H hG hH => ⟨hK1 G H (hG.left hb2 hsub) fun n hge hlt => ?_,
      hK2 G H (hG.right hb1 hsub) fun n hge hlt => ?_⟩⟩
  · exact (hH n hge (hlt.trans_le hb2.size_le)).trans (if_pos hlt)
  · exact (hH n (hb1.size_le.trans hge) hlt).trans (if_neg (Nat.not_lt.mpr hge))

theorem congr {O : Nat → Prop} (h : Labelled st A st1 O1 K1) (hO : ∀ n, O1 n ↔ O n)
    (hK : ∀ G H, K1 G H → K G H) : Labelled st A st1 O K := by
  obtain rfl : O = O1 := funext fun n => propext (hO n).symm
  obtain ⟨hb, label, hK1⟩ := h
  exact ⟨hb, label, fun G H hG hH => hK G H (hK1 G H hG hH)⟩

theorem opened {n : Nat} (h : Labelled st A st1 O1 K1) (hn : O1 n) : OpenAt st1.blockGraph n :=
  (h.1.opened n hn).1

end Labelled

/-- A run that has done nothing yet. -/
theorem Labelled.refl (T : Tracking L) (l : L) (st : BlockingState) {acc : BlockAccum}
    (hopen : OpenAt st.blockGraph acc.id) :
    Labelled st (fun n => n = acc.id) st (fun n => n = acc.id) fun G H =>
      T.AllFit G H st (fun n => n = acc.id) st (fun n => n = acc.id) :=
  (Labelled.of_ran l (Ran.refl st hopen)).congr (fun _ => Iff.rfl) fun G H _ => .refl T G H st _

/-- A new node gets a label. -/
theorem newBasicBlock_labelled (T : Tracking L) {st st' : BlockingState} {acc : BlockAccum} (l : L)
    (h : newBasicBlock st = .ok (acc, st')) :
    acc = ⟨st.blockGraph.size, []⟩ ∧ st'.blockGraph.size = st.blockGraph.size + 1 ∧
      Labelled st (fun _ => False) st' (fun n => n = acc.id) fun G H => T.At H acc l ∧ H acc.id = l ∧
        T.AllFit G H st (fun _ => False) st' (fun n => n = acc.id) := by
  obtain ⟨rfl, hsize, hb⟩ := newBasicBlock_builds h
  refine ⟨rfl, hsize, hb, fun _ => l, fun G H _ hH => ?_⟩
  have hl : H st.blockGraph.size = l := hH _ (Nat.le_refl _) (by omega)
  refine ⟨congrArg some hl, hl, .of_open fun n hn hreg => ?_⟩
  have hge := hreg.resolve_left fun h => h
  show n = st.blockGraph.size
  omega

/-- A committed node is the block. -/
theorem commitBasicBlock_labelled {st st' : BlockingState} {acc : BlockAccum}
    {es : List (IREdge × Nat)} {u : Unit} (l : L) (h : commitBasicBlock es acc st = .ok (u, st'))
    (hopen : OpenAt st.blockGraph acc.id) (hshape : EdgeShape es)
    (htarget : ∀ e ∈ es, e.2 < st.blockGraph.size) :
    st'.blockGraph.size = st.blockGraph.size ∧
      Labelled st (fun n => n = acc.id) st' (fun _ => False) fun G (_ : Nat → L) =>
        G.node acc.id = some ⟨acc.revInstrs.reverse, es⟩ := by
  obtain ⟨hsize, hnode, hb⟩ := commitBasicBlock_builds hopen hshape htarget h
  refine ⟨hsize, hb, fun _ => l, fun G H hG _ => ?_⟩
  rw [← hnode]
  exact hG acc.id (hsize ▸ hopen.1) (.inl rfl) fun h => h

/-- What a committed block with edges needs to fit. -/
theorem allFit_commit {st st' : BlockingState} {acc : BlockAccum} {es : List (IREdge × Nat)}
    {G : IRGraph IRInstruction} {H : Nat → L} {l : L}
    (hsize : st'.blockGraph.size = st.blockGraph.size)
    (hnode : G.node acc.id = some ⟨acc.revInstrs.reverse, es⟩) (hat : T.At H acc l)
    (hleads : T.Leads H es l) :
    T.AllFit G H st (fun n => n = acc.id) st' fun _ => False := by
  intro n hn hreg _
  rcases hreg with rfl | hge
  · exact ⟨_, hnode, .goesOn hat hleads⟩
  · omega

/-! ## Codes -/

/-- Runs of the code `c` take a label to one that `R` gives, and close nodes that fit. -/
def Tracks (T : Tracking L) (R : L → L → Prop) (c : Code) : Prop :=
  ∀ ⦃st acc acc' st'⦄, c acc st = .ok (acc', st') → EnvOK st → OpenAt st.blockGraph acc.id →
    ∀ ⦃l l'⦄, R l l' → Labelled st (fun n => n = acc.id) st' (fun n => n = acc'.id) fun G H =>
      T.At H acc l → T.At H acc' l' ∧
        T.AllFit G H st (fun n => n = acc.id) st' (fun n => n = acc'.id)

/-- Runs of the condition `d` lead to its targets with the label they start with. -/
def CondTracks (T : Tracking L) (d : CondCode) : Prop :=
  ∀ ⦃ifId elseId st acc u st'⦄, d ifId elseId acc st = .ok (u, st') → EnvOK st →
    OpenAt st.blockGraph acc.id → ifId < st.blockGraph.size → elseId < st.blockGraph.size →
    ∀ l, Labelled st (fun n => n = acc.id) st' (fun _ => False) fun G H =>
      T.At H acc l → H ifId = l → H elseId = l →
        T.AllFit G H st (fun n => n = acc.id) st' fun _ => False

variable {R S : L → L → Prop} {c c1 c2 : Code} {d d1 d2 : CondCode}

theorem appendInstructionsM_tracks {is : List IRInstruction}
    (h : ∀ l l', R l l' → T.walk is l = some l') : Tracks T R (appendInstructionsM is) := by
  intro st acc acc' st' hrun _ hopen l l' hR
  cases hrun
  refine (Labelled.refl T l st hopen).congr (fun _ => Iff.rfl) fun G H hfit hat => ⟨?_, hfit⟩
  show T.walk (is.reverse ++ acc.revInstrs).reverse (H acc.id) = some l'
  rw [List.reverse_append, List.reverse_reverse, Tracking.walk_append, hat]
  exact h l l' hR

theorem pure_tracks : Tracks T Eq pure := by
  intro st acc acc' st' hrun _ hopen l l' hR
  cases hrun
  subst hR
  exact (Labelled.refl T l st hopen).congr (fun _ => Iff.rfl) fun G H hfit hat => ⟨hat, hfit⟩

theorem notMatched_tracks : Tracks T R notMatched := by
  intro st acc acc' st' hrun
  cases hrun

theorem Tracks.mono (h : Tracks T R c) (hRS : ∀ l l', S l l' → R l l') : Tracks T S c :=
  fun _ _ _ _ hrun henv hopen _ _ hS => h hrun henv hopen (hRS _ _ hS)

theorem Tracks.seq (h1 : Tracks T R c1) (h2 : Tracks T S c2) :
    Tracks T (Relation.Comp R S) fun acc => c1 acc >>= c2 := by
  intro st acc acc' st' hrun henv hopen l l' hRS
  obtain ⟨m, hR, hS⟩ := hRS
  obtain ⟨acc1, st1, hr1, hr2⟩ := state_bind_ok.mp hrun
  have r1 := h1 hr1 henv hopen hR
  have r2 := h2 hr2 (henv.builds r1.1) (r1.opened rfl) hS
  refine (r1.trans r2 fun _ h => h).congr (fun n => by tauto) fun G H hK hat => ?_
  obtain ⟨hat1, hfit1⟩ := hK.1 hat
  obtain ⟨hat2, hfit2⟩ := hK.2 hat1
  exact ⟨hat2, (hfit1.trans hfit2).congr fun n => by tauto⟩

theorem Tracks.guarded {e : CompileError} {b : Bool} (h : b = true → Tracks T R c) :
    Tracks T R (fun acc => do guardError e b; c acc) := by
  intro st acc acc' st' hrun henv hopen l l' hR
  obtain ⟨u, st1, hguard, hrun⟩ := state_bind_ok.mp hrun
  obtain ⟨u', hb, heq⟩ := state_lift_ok.mp hguard
  cases heq
  exact h (guardError_ok.mp hb) hrun henv hopen hR

/-! ## Conditions -/

/-- A value on which a block branches. -/
theorem branch_tracks (op : Vm.CondOp) (h : Tracks T R c)
    (htest : ∀ l, ∃ v, R l v ∧ T.test v = some l) :
    CondTracks T (fun ifId elseId acc => do
      let acc ← c acc
      commitBasicBlock [(.conditional op, ifId), (.default, elseId)] acc) := by
  intro ifId elseId st acc u st' hrun henv hopen hif helse l
  obtain ⟨v, hR, hv⟩ := htest l
  obtain ⟨acc1, st1, hr1, hr2⟩ := state_bind_ok.mp hrun
  have r1 := h hr1 henv hopen hR
  have hle := r1.1.size_le
  obtain ⟨hsize, r2⟩ := commitBasicBlock_labelled l hr2 (r1.opened rfl) (.inr (.inr ⟨_, _, _, rfl⟩))
    (by intro e he; simp only [List.mem_cons, List.not_mem_nil, or_false] at he
        rcases he with rfl | rfl
        · exact hif.trans_le hle
        · exact helse.trans_le hle)
  refine (r1.trans r2 fun _ h => h).congr (fun n => by tauto) fun G H hK hat hifl helsel => ?_
  obtain ⟨hat1, hfit1⟩ := hK.1 hat
  have hleads : T.Leads H [(.conditional op, ifId), (.default, elseId)] v :=
    .branch (by rw [hv, helsel]) (hifl.trans helsel.symm)
  exact (hfit1.trans (allFit_commit hsize hK.2 hat1 hleads)).congr fun n => by tauto

theorem condNot_tracks (h : CondTracks T d) : CondTracks T (condNot d) := by
  intro ifId elseId st acc u st' hrun henv hopen hif helse l
  refine (h hrun henv hopen helse hif l).congr (fun _ => Iff.rfl) fun G H hK hat hifl helsel => ?_
  exact hK hat helsel hifl

theorem condConstant_tracks (b : Bool) : CondTracks T (condConstant b) := by
  intro ifId elseId st acc u st' hrun henv hopen hif helse l
  obtain ⟨hsize, r⟩ := commitBasicBlock_labelled l hrun hopen (.inr (.inl ⟨_, rfl⟩))
    (by intro e he; cases List.mem_singleton.mp he; cases b <;> assumption)
  refine r.congr (fun _ => Iff.rfl) fun G H hnode hat hifl helsel => ?_
  refine allFit_commit hsize hnode hat ?_
  have hl : l = H (if b then ifId else elseId) := by cases b <;> simp [hifl, helsel]
  rw [hl]
  exact .jump

/-- Two conditions, the second in a new block. -/
theorem twoConds_tracks (h1 : CondTracks T d1) (h2 : CondTracks T d2) (f g : Nat → Nat → Nat → Nat)
    (hf : ∀ i j k, f i j k = i ∨ f i j k = j ∨ f i j k = k)
    (hg : ∀ i j k, g i j k = i ∨ g i j k = j ∨ g i j k = k) :
    CondTracks T (fun ifId elseId acc => do
      let rhsAccum ← newBasicBlock
      d1 (f ifId elseId rhsAccum.id) (g ifId elseId rhsAccum.id) acc
      d2 ifId elseId rhsAccum) := by
  intro ifId elseId st acc u st' hrun henv hopen hif helse l
  obtain ⟨rhs, st1, hnew, hrun⟩ := state_bind_ok.mp hrun
  obtain ⟨u1, st2, hr1, hr2⟩ := state_bind_ok.mp hrun
  obtain ⟨rfl, hsize, r0⟩ := newBasicBlock_labelled T l hnew
  have hnacc : acc.id ≠ st.blockGraph.size := hopen.1.ne
  have r01 := (Labelled.refl T l st hopen).trans r0 fun n h => h.elim
  have htarget : ∀ n, n = ifId ∨ n = elseId ∨ n = st.blockGraph.size → n < st1.blockGraph.size := by
    intro n hn
    rcases hn with rfl | rfl | rfl <;> omega
  have r1 := h1 hr1 (henv.builds r01.1) (r01.opened (.inl ⟨rfl, fun h => h⟩))
    (htarget _ (hf _ _ _)) (htarget _ (hg _ _ _)) l
  have r2 := r01.trans r1 fun n hn => .inl ⟨hn, fun h => h⟩
  have hle := r1.1.size_le
  have r3 := h2 hr2 (henv.builds r2.1) (r2.opened (.inl ⟨.inr rfl, fun h => hnacc h.symm⟩))
    (by omega) (by omega) l
  refine (r2.trans r3 fun n hn => .inl ⟨.inr hn, ?_⟩).congr ?_ fun G H hK hat hifl helsel => ?_
  · rintro rfl
    exact hnacc hn
  · intro n
    simp only
    tauto
  · obtain ⟨⟨⟨hfit, hatRhs, hrhs, hnew⟩, hfit1⟩, hfit2⟩ := hK
    have hlabel : ∀ n, n = ifId ∨ n = elseId ∨ n = st.blockGraph.size → H n = l := by
      intro n hn
      rcases hn with rfl | rfl | rfl
      · exact hifl
      · exact helsel
      · exact hrhs
    have hfits := ((hfit.trans hnew).trans (hfit1 hat (hlabel _ (hf _ _ _)) (hlabel _ (hg _ _ _)))).trans
      (hfit2 hatRhs hifl helsel)
    refine hfits.congr fun n => ?_
    simp only
    tauto

theorem condDisj_tracks (h1 : CondTracks T d1) (h2 : CondTracks T d2) :
    CondTracks T (condDisj d1 d2) :=
  twoConds_tracks h1 h2 (fun i _ _ => i) (fun _ _ k => k) (by simp) (by simp)

theorem condConj_tracks (h1 : CondTracks T d1) (h2 : CondTracks T d2) :
    CondTracks T (condConj d1 d2) :=
  twoConds_tracks h1 h2 (fun _ _ k => k) (fun _ j _ => j) (by simp) (by simp)

/-- A comparison, from what its operands and the instruction behind them do. -/
theorem condComparison_tracks {t tr : Typ} (op : BinaryOp) {zLhs zRhs : Bool} {R1 R2 R3 : L → L → Prop}
    (h1 : Tracks T R1 (if zLhs then pure else if zRhs then booleanValue t c1 else c1))
    (h2 : Tracks T R2 (if zRhs then pure else if zLhs then booleanValue tr c2 else c2))
    (h3 : Tracks T R3 (if zLhs || zRhs then pure else appendInstructionsM [.arith t .cmp]))
    (htest : (zLhs && zRhs) = false → ∀ l, ∃ v,
      Relation.Comp (Relation.Comp R1 R2) R3 l v ∧ T.test v = some l) :
    CondTracks T (condComparison t tr op zLhs zRhs c1 c2) := by
  intro ifId elseId st acc u st' hrun henv hopen hif helse l
  obtain ⟨u1, st1, hguard, hrun⟩ := state_bind_ok.mp hrun
  obtain ⟨u2, hz, heq⟩ := state_lift_ok.mp hguard
  cases heq
  have hzero : (zLhs && zRhs) = false := by
    simpa only [Bool.not_eq_true'] using guardError_ok.mp hz
  have hbranch := branch_tracks (Vm.conditionFor (if zLhs then flipOp op else op))
    ((h1.seq h2).seq h3) (htest hzero)
  exact @hbranch ifId elseId st acc u st' (by simpa only [bind_assoc] using hrun) henv hopen hif helse l

theorem conditionalToVoid_tracks (h : CondTracks T d) : Tracks T Eq (conditionalToVoid d) := by
  intro st acc acc' st' hrun henv hopen l l' hl
  subst hl
  obtain ⟨after, st1, hnew, hrun⟩ := state_bind_ok.mp hrun
  obtain ⟨u, st2, hr1, hr2⟩ := state_bind_ok.mp hrun
  cases hr2
  obtain ⟨rfl, hsize, r0⟩ := newBasicBlock_labelled T l hnew
  have hnacc : acc.id ≠ st.blockGraph.size := hopen.1.ne
  have r01 := (Labelled.refl T l st hopen).trans r0 fun n h => h.elim
  have r1 := h hr1 (henv.builds r01.1) (r01.opened (.inl ⟨rfl, fun h => h⟩))
    (show st.blockGraph.size < _ by omega) (show st.blockGraph.size < _ by omega) l
  have hset : ∀ n, ((n = acc.id ∧ ¬ False) ∨ n = st.blockGraph.size) ∧ ¬ n = acc.id ∨ False ↔
      n = st.blockGraph.size := by
    intro n
    constructor
    · tauto
    · rintro rfl
      exact .inl ⟨.inr rfl, fun h => hnacc h.symm⟩
  refine (r01.trans r1 fun n hn => .inl ⟨hn, fun h => h⟩).congr hset fun G H hK hat => ?_
  obtain ⟨⟨hfit, hatAfter, hafter, hnew⟩, hfit1⟩ := hK
  exact ⟨hatAfter, ((hfit.trans hnew).trans (hfit1 hat hafter hafter)).congr hset⟩

/-- A condition as a value: its two constants have the effect of one value. -/
theorem conditionalToBooleanValue_tracks (h : CondTracks T d)
    (hconst : ∀ l l', R l l' → T.walk [.bconst 1] l = some l' ∧ T.walk [.bconst 0] l = some l') :
    Tracks T R (conditionalToBooleanValue d) := by
  intro st acc acc' st' hrun henv hopen l l' hR
  obtain ⟨hone, hzero⟩ := hconst l l' hR
  simp only [conditionalToBooleanValue, state_bind_ok] at hrun
  obtain ⟨thenAcc, st1, hnew1, elseAcc, st2, hnew2, afterAcc, st3, hnew3, u1, st4, hcond, hrun⟩ := hrun
  obtain ⟨thenEnd, st5, hthen, u2, st6, hcommit1, elseEnd, st7, helse, u3, st8, hcommit2, hret⟩ := hrun
  obtain ⟨rfl, hsize1, n1⟩ := newBasicBlock_labelled T l hnew1
  obtain ⟨rfl, hsize2, n2⟩ := newBasicBlock_labelled T l hnew2
  obtain ⟨rfl, hsize3, n3⟩ := newBasicBlock_labelled T l' hnew3
  obtain ⟨rfl, rfl⟩ := Prod.mk.inj (state_pure_ok.mp hret)
  obtain ⟨rfl, rfl⟩ := Prod.mk.inj (state_pure_ok.mp hthen)
  obtain ⟨rfl, rfl⟩ := Prod.mk.inj (state_pure_ok.mp helse)
  have hacc := hopen.1
  have r1 := (Labelled.refl T l st hopen).trans n1 fun n h => h.elim
  have r2 := r1.trans n2 fun n h => h.elim
  have r3 := r2.trans n3 fun n h => h.elim
  have r4 := h hcond (henv.builds r3.1) (r3.opened (by simp)) (by simp only; omega)
    (by simp only; omega) l
  have r5 := r3.trans r4 (by simp)
  have hle := r4.1.size_le
  obtain ⟨hsize6, c6⟩ := commitBasicBlock_labelled l hcommit1
    (r5.opened (by simp [appendInstructions]; omega)) (.inr (.inl ⟨_, rfl⟩)) (by simp; omega)
  have r6 := r5.trans c6 (by simp [appendInstructions]; omega)
  obtain ⟨hsize8, c8⟩ := commitBasicBlock_labelled l hcommit2
    (r6.opened (by simp [appendInstructions]; omega)) (.inr (.inl ⟨_, rfl⟩)) (by simp; omega)
  have r8 := r6.trans c8 (by simp [appendInstructions]; omega)
  refine r8.congr (O := fun n => n = st2.blockGraph.size) ?_ fun G H hK hat => ?_
  · intro n
    simp [appendInstructions]
    omega
  · obtain ⟨⟨⟨⟨⟨⟨f0, -, hthenl, f1⟩, -, helsel, f2⟩, hatAfter, hafterl, f3⟩, f4⟩, hnode6⟩, hnode8⟩ := hK
    have hleads : T.Leads H [(.default, st2.blockGraph.size)] l' := hafterl ▸ .jump
    have f6 := allFit_commit (T := T) hsize6 hnode6
      (show T.walk [.bconst 1] (H st.blockGraph.size) = some l' by rw [hthenl, hone]) hleads
    have f8 := allFit_commit (T := T) hsize8 hnode8
      (show T.walk [.bconst 0] (H st1.blockGraph.size) = some l' by rw [helsel, hzero]) hleads
    refine ⟨hatAfter, ((((((f0.trans f1).trans f2).trans f3).trans (f4 hat hthenl helsel)).trans f6).trans
      f8).congr fun n => ?_⟩
    simp [appendInstructions]
    omega

/-! ## Expressions -/

/-- What the three codes of an expression do to labels; as a condition it need not be used. -/
structure ExprTracks (T : Tracking L) (R : L → L → Prop) (B : Prop) (c : ExprCode) : Prop where
  value : Tracks T R c.value
  void : Tracks T Eq c.void
  cond : B → CondTracks T c.cond

theorem ExprTracks.ofValue {B : Prop} (h1 : Tracks T R c1) (h2 : Tracks T Eq c2)
    (htest : B → ∀ l, ∃ v, R l v ∧ T.test v = some l) : ExprTracks T R B (.ofValue c1 c2) :=
  ⟨h1, h2, fun hB => branch_tracks .ifNe h1 (htest hB)⟩

theorem ExprTracks.ofCond {B : Prop} (h1 : CondTracks T d) (h2 : Tracks T Eq c2)
    (hconst : ∀ l l', R l l' → T.walk [.bconst 1] l = some l' ∧ T.walk [.bconst 0] l = some l') :
    ExprTracks T R B (.ofCond d c2) :=
  ⟨conditionalToBooleanValue_tracks h1 hconst, h2, fun _ => h1⟩

end KeyboardFirmware.Compiler
