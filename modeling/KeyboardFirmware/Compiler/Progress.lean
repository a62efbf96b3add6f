/-
  The builder does not fail.

  Every guard of the builder is about something an earlier phase rules out: a block is committed while
  it is open, a `break` stands in a loop, an operand has the type its conversion expects, and of the
  operands of a comparison one is not a zero, since folding would have decided it.  So on checked and
  folded syntax every code runs through (`exprCode_goes`, `buildIRStatements_goes`), in whatever state
  its parts leave: where the code goes is known from `Compiler.BuildIn`, here it is shown that it gets
  there.  What remains is the check for a missing return.
-/
import KeyboardFirmware.Compiler.Checked
import KeyboardFirmware.Compiler.MethodGraph

namespace KeyboardFirmware.Compiler

variable {α β : Type}

/-! ## Runs that succeed -/

/-- The computation succeeds, with a result and in a state as `Q` says. -/
def Runs (x : ThrowsBlockingState α) (st : BlockingState) (Q : α → BlockingState → Prop) : Prop :=
  ∃ a st', x st = .ok (a, st') ∧ Q a st'

namespace Runs

variable {x : ThrowsBlockingState α} {f : α → ThrowsBlockingState β} {st : BlockingState}
  {Q Q' : α → BlockingState → Prop} {R : β → BlockingState → Prop}

theorem pure {a : α} (h : Q a st) : Runs (Pure.pure a) st Q := ⟨a, st, rfl, h⟩

theorem bind (h : Runs x st Q) (hf : ∀ a st', Q a st' → Runs (f a) st' R) :
    Runs (x >>= f) st R := by
  obtain ⟨a, st1, hx, hQ⟩ := h
  obtain ⟨b, st2, hb, hR⟩ := hf a st1 hQ
  exact ⟨b, st2, state_bind_ok.mpr ⟨a, st1, hx, hb⟩, hR⟩

/-- Two steps at once. -/
theorem bindTwo {γ : Type} {g : β → ThrowsBlockingState γ} {S : γ → BlockingState → Prop}
    (h : Runs (x >>= f) st R) (hg : ∀ b st', R b st' → Runs (g b) st' S) :
    Runs (x >>= fun a => f a >>= g) st S := by
  rw [← bind_assoc]
  exact h.bind hg

theorem mono (h : Runs x st Q) (hQ : ∀ a st', Q a st' → Q' a st') : Runs x st Q' := by
  obtain ⟨a, st', hx, hr⟩ := h
  exact ⟨a, st', hx, hQ a st' hr⟩

theorem guard {e : CompileError} {b : Bool} {Q : Unit → BlockingState → Prop} (hb : b = true)
    (h : Q () st) : Runs (guardError e b : ThrowsBlockingState Unit) st Q := by
  subst hb
  exact ⟨(), st, rfl, h⟩

end Runs

/-- A node that a run does not take stays open. -/
theorem OpenAt.frame {st st' : BlockingState} {A O : Nat → Prop} {n : Nat}
    (h : OpenAt st.blockGraph n) (hb : Builds st A st' O) (hn : ¬ A n) : OpenAt st'.blockGraph n :=
  ⟨h.1.trans_le hb.size_le, by rw [hb.frame n h.1 hn]; exact h.2⟩

theorem newBasicBlock_runs (st : BlockingState) : Runs newBasicBlock st fun acc st' =>
    acc = ⟨st.blockGraph.size, []⟩ ∧ st'.blockGraph.size = st.blockGraph.size + 1 ∧
      Builds st (fun _ => False) st' fun n => n = st.blockGraph.size := by
  refine ⟨⟨st.blockGraph.size, []⟩, { st with blockGraph := st.blockGraph.insNode }, rfl, ?_⟩
  exact newBasicBlock_builds rfl

/-- An open block can be committed. -/
theorem commitBasicBlock_runs {st : BlockingState} {acc : BlockAccum} {es : List (IREdge × Nat)}
    (hopen : OpenAt st.blockGraph acc.id) (hshape : EdgeShape es)
    (htarget : ∀ e ∈ es, e.2 < st.blockGraph.size) :
    Runs (commitBasicBlock es acc) st fun _ st' => st'.blockGraph.size = st.blockGraph.size ∧
      Builds st (fun n => n = acc.id) st' fun _ => False := by
  have hrun : commitBasicBlock es acc st = .ok ((),
      ⟨es.foldl (insEdge acc.id) (st.blockGraph.set acc.id (some ⟨acc.revInstrs.reverse, []⟩)),
        st.continueBlockId, st.breakBlockId⟩) := by
    simp only [commitBasicBlock, state_bind_ok, state_get_ok, state_lift_ok]
    exact ⟨st, st, rfl, _, st, ⟨_, updateBlockContents_open hopen, rfl⟩, rfl⟩
  obtain ⟨hsize, -, hb⟩ := commitBasicBlock_builds hopen hshape htarget hrun
  exact ⟨(), _, hrun, hsize, hb⟩

/-- An open block can be committed with a default edge. -/
theorem commitDefault_runs {st : BlockingState} {acc : BlockAccum} {k : Nat}
    (hopen : OpenAt st.blockGraph acc.id) (hk : k < st.blockGraph.size) :
    Runs (commitBasicBlock [(.default, k)] acc) st fun _ st' =>
      st'.blockGraph.size = st.blockGraph.size ∧
        Builds st (fun n => n = acc.id) st' fun _ => False :=
  commitBasicBlock_runs hopen (.inr (.inl ⟨k, rfl⟩)) (by simpa using hk)

/-! ## Codes that go through -/

/-- The loop blocks are nodes, and within a loop they are known. -/
structure Ready (loop : Bool) (st : BlockingState) : Prop where
  env : EnvOK st
  known : loop = true → (∃ k, st.continueBlockId = some k) ∧ ∃ k, st.breakBlockId = some k

theorem Ready.builds {loop : Bool} {st st' : BlockingState} {A O : Nat → Prop} (h : Ready loop st)
    (hb : Builds st A st' O) : Ready loop st' where
  env := h.env.builds hb
  known hl := by
    rw [hb.continueBlockId, hb.breakBlockId]
    exact h.known hl

/-- A code that runs through from every open block. -/
structure Goes (loop : Bool) (c : Code) : Prop where
  spec : CodeSpec (fun _ _ _ _ => True) c
  runs : ∀ ⦃st acc⦄, Ready loop st → OpenAt st.blockGraph acc.id →
    Runs (c acc) st fun _ _ => True

/-- The same for conditions. -/
structure CondGoes (loop : Bool) (d : CondCode) : Prop where
  spec : CondSpec (fun _ _ _ _ => True) d
  runs : ∀ ⦃ifId elseId st acc⦄, Ready loop st → OpenAt st.blockGraph acc.id →
    ifId < st.blockGraph.size → elseId < st.blockGraph.size →
    Runs (d ifId elseId acc) st fun _ _ => True

variable {loop : Bool} {c c1 c2 : Code} {d d1 d2 : CondCode} {st : BlockingState} {acc : BlockAccum}

theorem Goes.builds (h : Goes loop c) (hr : Ready loop st) (hopen : OpenAt st.blockGraph acc.id) :
    Runs (c acc) st fun acc' st' => Builds st (fun n => n = acc.id) st' fun n => n = acc'.id := by
  obtain ⟨acc', st', hrun, -⟩ := h.runs hr hopen
  exact ⟨acc', st', hrun, (h.spec hrun hr.env hopen).1⟩

theorem CondGoes.builds (h : CondGoes loop d) {ifId elseId : Nat} (hr : Ready loop st)
    (hopen : OpenAt st.blockGraph acc.id) (hif : ifId < st.blockGraph.size)
    (helse : elseId < st.blockGraph.size) :
    Runs (d ifId elseId acc) st fun _ st' =>
      Builds st (fun n => n = acc.id) st' fun _ => False := by
  obtain ⟨u, st', hrun, -⟩ := h.runs hr hopen hif helse
  exact ⟨u, st', hrun, (h.spec hrun hr.env hopen hif helse).1⟩

theorem CodeSpec.weaken {P : IRGraph IRInstruction → LoopEnv → PosRel} (h : CodeSpec P c) :
    CodeSpec (fun _ _ _ _ => True) c :=
  h.mono fun _ _ _ _ _ => trivial

theorem CondSpec.weaken {P : IRGraph IRInstruction → CondRel} (h : CondSpec P d) :
    CondSpec (fun _ _ _ _ => True) d :=
  fun _ _ _ _ _ _ hrun henv hopen hif helse =>
    (h hrun henv hopen hif helse).congr (fun _ => Iff.rfl) fun _ hG => ⟨hG.1, trivial⟩

/-! ## Straight code -/

theorem appendInstructionsM_runs (is : List IRInstruction) (acc : BlockAccum) (st : BlockingState) :
    Runs (appendInstructionsM is acc) st fun acc' st' => st' = st ∧ acc'.id = acc.id :=
  .pure ⟨rfl, rfl⟩

theorem appendInstructionsM_goes (is : List IRInstruction) : Goes loop (appendInstructionsM is) :=
  ⟨(appendInstructionsM_spec is).weaken, fun _ _ _ _ => .pure trivial⟩

theorem pure_goes : Goes loop pure := ⟨pure_spec.weaken, fun _ _ _ _ => .pure trivial⟩

theorem Goes.seq (h1 : Goes loop c1) (h2 : Goes loop c2) : Goes loop fun acc => c1 acc >>= c2 :=
  ⟨(h1.spec.seq h2.spec).weaken, fun _ _ hr hopen =>
    (h1.builds hr hopen).bind fun _ _ hb => h2.runs (hr.builds hb) (hb.opened _ rfl).1⟩

theorem Goes.guarded {e : CompileError} {b : Bool} (hb : b = true) (h : Goes loop c) :
    Goes loop (fun acc => do guardError e b; c acc) :=
  ⟨h.spec.guarded.weaken, fun _ acc hr hopen =>
    (Runs.guard (Q := fun _ st => Ready loop st ∧ OpenAt st.blockGraph acc.id) hb ⟨hr, hopen⟩).bind
      fun _ _ hst => h.runs hst.1 hst.2⟩

theorem booleanCast_goes {t : Typ} (ht : t ≠ .void) : Goes loop (booleanCast t) := by
  cases t with
  | byte => exact pure_goes
  | short => exact appendInstructionsM_goes _
  | void => exact absurd rfl ht

theorem discardValue_goes (t : Typ) : Goes loop (discardValue t) := by
  cases t with
  | void => exact pure_goes
  | byte | short => exact appendInstructionsM_goes _

/-! ## Conditions -/

theorem branch_runs {op : Vm.CondOp} {ifId elseId : Nat} (hopen : OpenAt st.blockGraph acc.id)
    (hif : ifId < st.blockGraph.size) (helse : elseId < st.blockGraph.size) :
    Runs (commitBasicBlock [(.conditional op, ifId), (.default, elseId)] acc) st fun _ _ => True := by
  refine (commitBasicBlock_runs hopen (.inr (.inr ⟨op, ifId, elseId, rfl⟩)) ?_).mono
    fun _ _ _ => trivial
  intro e he
  rcases List.mem_cons.mp he with rfl | he
  · exact hif
  · exact List.mem_singleton.mp he ▸ helse

/-- A value on which a block branches. -/
theorem Goes.branch (h : Goes loop c) (op : Vm.CondOp) :
    CondGoes loop (fun ifId elseId acc => do
      let acc ← c acc
      commitBasicBlock [(.conditional op, ifId), (.default, elseId)] acc) := by
  refine ⟨(branch_spec op (V := fun _ _ _ => True) h.spec).weaken, ?_⟩
  intro ifId elseId st acc hr hopen hif helse
  refine (h.builds hr hopen).bind fun acc' st' hb => ?_
  exact branch_runs (hb.opened _ rfl).1 (hif.trans_le hb.size_le) (helse.trans_le hb.size_le)

theorem Goes.condOfValue (h : Goes loop c) : CondGoes loop (condOfValue c) := h.branch .ifNe

theorem CondGoes.not (h : CondGoes loop d) : CondGoes loop (condNot d) :=
  ⟨(condNot_spec h.spec).weaken, fun _ _ _ _ hr hopen hif helse => h.runs hr hopen helse hif⟩

theorem condConstant_goes (b : Bool) : CondGoes loop (condConstant b) := by
  refine ⟨(condConstant_spec b).weaken, fun ifId elseId st acc _ hopen hif helse => ?_⟩
  refine (commitDefault_runs hopen ?_).mono fun _ _ _ => trivial
  cases b
  · exact helse
  · exact hif

/-- Two conditions, the second in a new block. -/
theorem CondGoes.two (h1 : CondGoes loop d1) (h2 : CondGoes loop d2) (f g : Nat → Nat → Nat → Nat)
    (hf : ∀ i j k, f i j k = i ∨ f i j k = j ∨ f i j k = k)
    (hg : ∀ i j k, g i j k = i ∨ g i j k = j ∨ g i j k = k) :
    CondGoes loop (fun ifId elseId acc => do
      let rhsAccum ← newBasicBlock
      d1 (f ifId elseId rhsAccum.id) (g ifId elseId rhsAccum.id) acc
      d2 ifId elseId rhsAccum) := by
  refine ⟨(twoConds_spec h1.spec h2.spec f g hf hg).weaken, ?_⟩
  intro ifId elseId st acc hr hopen hif helse
  refine (newBasicBlock_runs st).bind fun rhs st1 ⟨hrhs, hsize, b1⟩ => ?_
  subst hrhs
  have hr1 := hr.builds b1
  have htarget : ∀ n, n = ifId ∨ n = elseId ∨ n = st.blockGraph.size → n < st1.blockGraph.size := by
    rintro n (rfl | rfl | rfl) <;> omega
  have hne : st.blockGraph.size ≠ acc.id := hopen.1.ne'
  refine (h1.builds hr1 (hopen.frame b1 id) (htarget _ (hf _ _ _)) (htarget _ (hg _ _ _))).bind
    fun u st2 b2 => ?_
  have hle := b2.size_le
  exact h2.runs (hr1.builds b2) ((b1.opened _ rfl).1.frame b2 hne) (by omega) (by omega)

theorem CondGoes.disj (h1 : CondGoes loop d1) (h2 : CondGoes loop d2) :
    CondGoes loop (condDisj d1 d2) :=
  h1.two h2 (fun i _ _ => i) (fun _ _ k => k) (by simp) (by simp)

theorem CondGoes.conj (h1 : CondGoes loop d1) (h2 : CondGoes loop d2) :
    CondGoes loop (condConj d1 d2) :=
  h1.two h2 (fun _ _ k => k) (fun _ j _ => j) (by simp) (by simp)

theorem operand_goes {t : Typ} (ht : t ≠ .void) (zero otherZero : Bool) (h : Goes loop c) :
    Goes loop (if zero then pure else if otherZero then booleanValue t c else c) := by
  cases zero
  · cases otherZero
    · exact h
    · exact h.seq (booleanCast_goes ht)
  · exact pure_goes

/-- A comparison of operands that have values and are not both zeros. -/
theorem condComparison_goes {t tr : Typ} (ht : t ≠ .void) (htr : tr ≠ .void) (op : BinaryOp)
    {zLhs zRhs : Bool} (hz : (zLhs && zRhs) = false) (h1 : Goes loop c1) (h2 : Goes loop c2) :
    CondGoes loop (condComparison t tr op zLhs zRhs c1 c2) := by
  have hcmp : Goes loop (if zLhs || zRhs then pure else appendInstructionsM [.arith t .cmp]) := by
    cases zLhs || zRhs
    · exact appendInstructionsM_goes _
    · exact pure_goes
  have hcode := ((operand_goes ht zLhs zRhs h1).seq (operand_goes htr zRhs zLhs h2)).seq hcmp
  have hbranch := hcode.branch (Vm.conditionFor (if zLhs then flipOp op else op))
  refine ⟨(condComparison_spec t tr op zLhs zRhs (V := fun _ _ _ => True) (W := fun _ _ _ => True)
    h1.spec h2.spec).weaken, fun ifId elseId st acc hr hopen hif helse => ?_⟩
  refine (Runs.guard (Q := fun _ st' => st' = st) (by simp [hz]) rfl).bind fun _ st' hst => ?_
  subst hst
  simpa only [bind_assoc] using hbranch.runs hr hopen hif helse

theorem CondGoes.toVoid (h : CondGoes loop d) : Goes loop (conditionalToVoid d) := by
  refine ⟨(conditionalToVoid_spec h.spec).weaken, fun st acc hr hopen => ?_⟩
  refine (newBasicBlock_runs st).bind fun after st1 ⟨hafter, hsize, b1⟩ => ?_
  subst hafter
  have hlt : st.blockGraph.size < st1.blockGraph.size := by omega
  exact (h.builds (hr.builds b1) (hopen.frame b1 id) hlt hlt).bind fun _ _ _ => .pure trivial

theorem CondGoes.toBooleanValue (h : CondGoes loop d) : Goes loop (conditionalToBooleanValue d) := by
  refine ⟨(conditionalToBooleanValue_spec h.spec).weaken, fun st acc hr hopen => ?_⟩
  refine (newBasicBlock_runs st).bind fun thenAcc st1 ⟨hthen, hsize1, b1⟩ => ?_
  refine (newBasicBlock_runs st1).bind fun elseAcc st2 ⟨helse, hsize2, b2⟩ => ?_
  refine (newBasicBlock_runs st2).bind fun afterAcc st3 ⟨hafter, hsize3, b3⟩ => ?_
  subst hthen helse hafter
  have hacc := hopen.1
  have hthen := ((b1.opened _ rfl).1.frame b2 id).frame b3 id
  have helse := (b2.opened _ rfl).1.frame b3 id
  refine (h.builds (((hr.builds b1).builds b2).builds b3)
    (((hopen.frame b1 id).frame b2 id).frame b3 id) hthen.1 helse.1).bind fun _ st4 b4 => ?_
  have hle := b4.size_le
  refine (appendInstructionsM_runs _ _ st4).bind fun thenEnd st5 ⟨hst5, hid⟩ => ?_
  subst hst5
  refine (commitDefault_runs (hid ▸ hthen.frame b4 hacc.ne') (by simp only; omega)).bind
    fun _ st6 ⟨hsize6, b6⟩ => ?_
  refine (appendInstructionsM_runs _ _ st6).bind fun elseEnd st7 ⟨hst7, hid'⟩ => ?_
  subst hst7
  have helse7 : OpenAt st7.blockGraph elseEnd.id := by
    rw [hid']
    exact (helse.frame b4 (by omega)).frame b6 (by rw [hid]; simp only; omega)
  exact (commitDefault_runs helse7 (by simp only; omega)).bind fun _ _ _ => .pure trivial

/-! ## Expressions -/

/-- All three codes of an expression go through. -/
structure ExprGoes (loop : Bool) (c : ExprCode) : Prop where
  value : Goes loop c.value
  void : Goes loop c.void
  cond : CondGoes loop c.cond

theorem ExprGoes.ofValue (h1 : Goes loop c1) (h2 : Goes loop c2) :
    ExprGoes loop (.ofValue c1 c2) :=
  ⟨h1, h2, h1.condOfValue⟩

theorem ExprGoes.ofCond (h1 : CondGoes loop d) (h2 : Goes loop c2) :
    ExprGoes loop (.ofCond d c2) :=
  ⟨h1.toBooleanValue, h2, h1⟩

/-- The operand of `++` or `--` before it is a variable. -/
theorem prefixStep_goes (op : PrefixOp) {e : TExpression} (he : isLoad e = true) (c : ExprCode) :
    ExprGoes loop ((prefixStep op e).getD c) := by
  cases e with
  | globalLoad | localLoad => exact .ofValue (appendInstructionsM_goes _) (appendInstructionsM_goes _)
  | _ => exact (nomatch he)

theorem postfixStep_goes (op : PostfixOp) {e : TExpression} (he : isLoad e = true) :
    ExprGoes loop (postfixStep op e) := by
  cases e with
  | globalLoad | localLoad => exact .ofValue (appendInstructionsM_goes _) (appendInstructionsM_goes _)
  | _ => exact (nomatch he)

theorem literal_goes (i : IRInstruction) (b : Bool) :
    ExprGoes loop ⟨appendInstructionsM [i], pure, condConstant b⟩ :=
  ⟨appendInstructionsM_goes _, pure_goes, condConstant_goes b⟩

variable {tables : BindingState}

mutual

/-- **The code of a well-typed expression without comparisons of zeros goes through**, in every
    context. -/
theorem exprCode_goes : ∀ (e : TExpression), WellTyped tables e → NoZeroComparison e →
    ExprGoes loop (exprCode e)
  | .globalStore t i e, ⟨_, _, he⟩, hz =>
    have h := (exprCode_goes e he hz).value
    .ofValue (h.seq (appendInstructionsM_goes _)) (h.seq (appendInstructionsM_goes _))
  | .localStore t i e, ⟨_, _, he⟩, hz =>
    have h := (exprCode_goes e he hz).value
    .ofValue (h.seq (appendInstructionsM_goes _)) (h.seq (appendInstructionsM_goes _))
  | .globalLoad _ i, _, _ => .ofValue (appendInstructionsM_goes _) pure_goes
  | .localLoad _ i, _, _ => .ofValue (appendInstructionsM_goes _) pure_goes
  | .prefixExpression _ .not e, ⟨_, _, _, _, he⟩, hz =>
    have h := (exprCode_goes e he hz).cond.not
    .ofCond h h.toVoid
  | .prefixExpression t .complement e, ⟨_, _, _, _, he⟩, hz =>
    have h := exprCode_goes e he hz
    .ofValue (h.value.seq (appendInstructionsM_goes _)) h.void
  | .prefixExpression t .minus e, ⟨_, _, _, _, he⟩, hz =>
    have h := exprCode_goes e he hz
    .ofValue ((appendInstructionsM_goes _).seq (h.value.seq (appendInstructionsM_goes _))) h.void
  | .prefixExpression _ .predecrement e, ⟨_, _, _, hstep, _⟩, _ => prefixStep_goes _ (hstep rfl) _
  | .prefixExpression _ .preincrement e, ⟨_, _, _, hstep, _⟩, _ => prefixStep_goes _ (hstep rfl) _
  | .postfixExpression _ e op, ⟨_, _, hload, _⟩, _ => postfixStep_goes op hload
  | .binaryExpression t lhs op rhs, ⟨_, htr, htl, _, hwl, hwr⟩, ⟨hzero, hzl, hzr⟩ => by
    have hl := exprCode_goes lhs hwl hzl
    have hr := exprCode_goes rhs hwr hzr
    have hvoid := hl.void.seq hr.void
    cases op
    case conj =>
      have h := hl.cond.conj hr.cond
      exact .ofCond h h.toVoid
    case disj =>
      have h := hl.cond.disj hr.cond
      exact .ofCond h h.toVoid
    case gt | ge | lt | le | eq | ne =>
      exact .ofCond (condComparison_goes htl (htr ▸ htl) _ (hzero rfl) hl.value hr.value) hvoid
    all_goals exact .ofValue (hl.value.seq (hr.value.seq (appendInstructionsM_goes _))) hvoid
  | .shortLiteral val, _, _ => literal_goes _ _
  | .byteLiteral val, _, _ => literal_goes _ _
  | .methodCall t i args, ⟨_, _, _, _, _, hargs⟩, hz =>
    have h := (argsCode_goes args hargs hz).seq (appendInstructionsM_goes [.call i])
    .ofValue h (h.seq (discardValue_goes t))
  | .syscall t op args, ⟨_, _, _, _, hargs⟩, hz =>
    have h := (argsCode_goes args hargs hz).seq (appendInstructionsM_goes [.syscall op])
    .ofValue h (h.seq (discardValue_goes t))
  | .typeConversion .void e, ⟨_, _, he⟩, hz =>
    have h := exprCode_goes e he hz
    .ofValue h.void h.void
  | .typeConversion .short e, ⟨hne, hvoid, he⟩, hz =>
    have h := exprCode_goes e he hz
    -- neither a short nor void
    have ht : typeOf e = .byte := by
      cases hty : typeOf e with
      | byte => rfl
      | short => exact absurd hty hne
      | void => exact absurd hty (hvoid (by decide))
    .ofValue ((h.value.seq (appendInstructionsM_goes [.b2s])).guarded (by simp [ht])) h.void
  | .typeConversion .byte e, ⟨hne, hvoid, he⟩, hz =>
    have h := exprCode_goes e he hz
    have ht : typeOf e = .short := by
      cases hty : typeOf e with
      | byte => exact absurd hty hne
      | short => rfl
      | void => exact absurd hty (hvoid (by decide))
    .ofValue ((h.value.seq (appendInstructionsM_goes [.s2b])).guarded (by simp [ht])) h.void
  | .booleanConversion e, ⟨ht, he⟩, hz =>
    have h := exprCode_goes e he hz
    .ofValue (h.value.seq (booleanCast_goes (by rw [ht]; decide))) h.void

theorem argsCode_goes : ∀ (es : List TExpression), WellTypedArgs tables es →
    NoZeroComparisonArgs es → Goes loop (argsCode es)
  | [], _, _ => pure_goes
  | e :: es, ⟨he, hes⟩, ⟨hz, hzs⟩ => (exprCode_goes e he hz).value.seq (argsCode_goes es hes hzs)

end

/-! ## Statements -/

/-- Code whose last block is committed with a default edge. -/
theorem Goes.thenCommit (h : Goes loop c) {k : Nat} (hr : Ready loop st)
    (hopen : OpenAt st.blockGraph acc.id) (hk : k < st.blockGraph.size) :
    Runs (c acc >>= commitBasicBlock [(.default, k)]) st fun _ st' =>
      Builds st (fun n => n = acc.id) st' fun _ => False := by
  have hrun : Runs (c acc >>= commitBasicBlock [(.default, k)]) st fun _ _ => True := by
    refine (h.builds hr hopen).bind fun acc' st' hb => ?_
    exact (commitDefault_runs (hb.opened _ rfl).1 (hk.trans_le hb.size_le)).mono fun _ _ _ => trivial
  obtain ⟨u, st', heq, -⟩ := hrun
  exact ⟨u, st', heq, (h.spec.thenCommit heq hr.env hopen hk).1⟩

/-- The body of a loop, whatever loop it stands in. -/
theorem Goes.loopBody (h : Goes true c) (acc : BlockAccum) (condId followingId : Nat)
    (hopen : OpenAt st.blockGraph acc.id) (hcond : condId < st.blockGraph.size)
    (hfollow : followingId < st.blockGraph.size) :
    Runs (withLoopEnvironment acc.id followingId (c acc >>= commitBasicBlock [(.default, condId)])) st
      fun _ st' => Builds st (fun n => n = acc.id) st' fun _ => False := by
  have hready : Ready true ⟨st.blockGraph, some acc.id, some followingId⟩ := by
    refine ⟨⟨?_, ?_⟩, fun _ => ⟨⟨_, rfl⟩, ⟨_, rfl⟩⟩⟩ <;> rintro k ⟨rfl⟩
    · exact hopen.1
    · exact hfollow
  obtain ⟨u, st1, hbody, -⟩ := h.thenCommit hready hopen hcond
  have hrun : withLoopEnvironment acc.id followingId (c acc >>= commitBasicBlock [(.default, condId)])
      st = .ok (u, ⟨st1.blockGraph, st.continueBlockId, st.breakBlockId⟩) := by
    simp only [withLoopEnvironment, state_bind_ok, state_get_ok]
    exact ⟨st, st, rfl, (), _, rfl, u, st1, state_bind_ok.mp hbody, (), _, rfl, rfl⟩
  exact ⟨u, _, hrun, (loopBody_ran h.spec hrun hopen hcond hfollow).1⟩

/-- A committed block, with dead code after it. -/
theorem deadAfter_runs {es : List (IREdge × Nat)} (hopen : OpenAt st.blockGraph acc.id)
    (hshape : EdgeShape es) (htarget : ∀ e ∈ es, e.2 < st.blockGraph.size) :
    Runs (do commitBasicBlock es acc; newBasicBlock) st fun _ _ => True :=
  (commitBasicBlock_runs hopen hshape htarget).bind fun _ st' _ =>
    (newBasicBlock_runs st').mono fun _ _ _ => trivial

theorem Goes.leave (h : Goes loop c) :
    Goes loop (fun acc => do
      commitBasicBlock [] (← c acc)
      newBasicBlock) :=
  ⟨(leave_spec h.spec).weaken, fun _ _ hr hopen => (h.builds hr hopen).bind fun _ _ hb =>
    deadAfter_runs (hb.opened _ rfl).1 (.inl rfl) (by simp)⟩

/-- `break` and `continue`, within a loop. -/
theorem jump_goes {target : BlockingState → Option Nat} {e : CompileError}
    {f : LoopEnv → Option Nat} (hf : ∀ st : BlockingState, f st.env = target st)
    (htarget : ∀ st k, EnvOK st → target st = some k → k < st.blockGraph.size)
    (hknown : ∀ st, Ready true st → ∃ k, target st = some k) :
    Goes true (fun acc => do
      let id := target (← get)
      match id with
      | none => throw e
      | some id =>
        commitBasicBlock [(.default, id)] acc
        newBasicBlock) := by
  refine ⟨(jump_spec htarget hf).weaken, fun st acc hr hopen => ?_⟩
  obtain ⟨k, hk⟩ := hknown st hr
  refine Runs.bind (Q := fun a st' => a = st ∧ st' = st) ⟨st, st, rfl, rfl, rfl⟩ ?_
  rintro _ _ ⟨rfl, rfl⟩
  simp only [hk]
  exact deadAfter_runs hopen (.inr (.inl ⟨k, rfl⟩)) (by simpa using htarget _ k hr.env hk)

/-- An expression that is checked and folded. -/
def Folded (tables : BindingState) (e : TExpression) : Prop :=
  WellTyped tables e ∧ NoZeroComparison e

theorem Folded.goes {e : TExpression} (h : Folded tables e) : ExprGoes loop (exprCode e) :=
  exprCode_goes e h.1 h.2

mutual

/-- **The code of a checked statement goes through.** -/
theorem buildIRStatement_goes : ∀ {loop : Bool} (s : TStatement),
    StmtChecked (Folded tables) loop s → Goes loop (buildIRStatement s)
  | _, .block _ stats, hs => buildIRStatements_goes stats hs
  | loop, .ifStatement expr thenBody none, ⟨he, ht, _⟩ => by
    have hcond : CondGoes loop _ := he.goes.cond
    have hthen := buildIRStatement_goes thenBody ht
    refine ⟨(buildIRStatement_spec _).weaken, fun st acc hr hopen => ?_⟩
    refine (newBasicBlock_runs st).bind fun thenAcc st1 ⟨hth, hsize1, b1⟩ => ?_
    refine (newBasicBlock_runs st1).bind fun following st2 ⟨hfo, hsize2, b2⟩ => ?_
    subst hth hfo
    have hacc := hopen.1
    have hr2 := (hr.builds b1).builds b2
    have othen := (b1.opened _ rfl).1.frame b2 id
    refine (hcond.builds hr2 ((hopen.frame b1 id).frame b2 id) othen.1
      (b2.opened _ rfl).1.1).bind fun _ st3 b3 => ?_
    have hle := b3.size_le
    exact (hthen.thenCommit (hr2.builds b3) (othen.frame b3 hacc.ne') (by simp only; omega)).bindTwo
      fun _ _ _ => .pure trivial
  | loop, .ifStatement expr thenBody (some elseBody), ⟨he, ht, hf⟩ => by
    have hcond : CondGoes loop _ := he.goes.cond
    have hthen := buildIRStatement_goes thenBody ht
    have helse := buildIRStatement_goes elseBody hf
    refine ⟨(buildIRStatement_spec _).weaken, fun st acc hr hopen => ?_⟩
    refine (newBasicBlock_runs st).bind fun thenAcc st1 ⟨hth, hsize1, b1⟩ => ?_
    refine (newBasicBlock_runs st1).bind fun following st2 ⟨hfo, hsize2, b2⟩ => ?_
    refine (newBasicBlock_runs st2).bind fun elseAcc st3 ⟨hel, hsize3, b3⟩ => ?_
    subst hth hfo hel
    have hacc := hopen.1
    have hr3 := ((hr.builds b1).builds b2).builds b3
    have othen := ((b1.opened _ rfl).1.frame b2 id).frame b3 id
    have oelse := (b3.opened _ rfl).1
    refine (hcond.builds hr3 (((hopen.frame b1 id).frame b2 id).frame b3 id) othen.1
      oelse.1).bind fun _ st4 b4 => ?_
    have hle := b4.size_le
    refine (hthen.thenCommit (hr3.builds b4) (othen.frame b4 hacc.ne')
      (by simp only; omega)).bindTwo fun _ st5 b5 => ?_
    have hle' := b5.size_le
    exact (helse.thenCommit ((hr3.builds b4).builds b5)
      ((oelse.frame b4 (by omega)).frame b5 (by simp only; omega)) (by simp only; omega)).bindTwo
        fun _ _ _ => .pure trivial
  | loop, .whileStatement cond body, ⟨he, hb⟩ => by
    have hcond : CondGoes loop _ := he.goes.cond
    have hbody := buildIRStatement_goes body hb
    refine ⟨(buildIRStatement_spec _).weaken, fun st acc hr hopen => ?_⟩
    refine (newBasicBlock_runs st).bind fun condAcc st1 ⟨hco, hsize1, b1⟩ => ?_
    refine (newBasicBlock_runs st1).bind fun bodyAcc st2 ⟨hbo, hsize2, b2⟩ => ?_
    refine (newBasicBlock_runs st2).bind fun following st3 ⟨hfo, hsize3, b3⟩ => ?_
    subst hco hbo hfo
    have hacc := hopen.1
    have hr3 := ((hr.builds b1).builds b2).builds b3
    have ocond := ((b1.opened _ rfl).1.frame b2 id).frame b3 id
    have obody := (b2.opened _ rfl).1.frame b3 id
    refine (commitDefault_runs (((hopen.frame b1 id).frame b2 id).frame b3 id) ocond.1).bind
      fun _ st4 ⟨hsize4, b4⟩ => ?_
    refine (hcond.builds (hr3.builds b4) (ocond.frame b4 hacc.ne') (by simp only; omega)
      (by simp only; omega)).bind fun _ st5 b5 => ?_
    have hle := b5.size_le
    exact (hbody.loopBody _ _ _ ((obody.frame b4 (by omega)).frame b5 (by simp only; omega))
      (by simp only; omega) (by simp only; omega)).bind fun _ _ _ => .pure trivial
  | loop, .forStatement initializer cond iter body, ⟨hi, he, hit, hb⟩ => by
    have hcond : CondGoes loop _ := he.goes.cond
    have hinit : Goes loop _ := hi.goes.void
    have hbody := (buildIRStatement_goes body hb).seq hit.goes.void
    refine ⟨(buildIRStatement_spec _).weaken, fun st acc hr hopen => ?_⟩
    refine (newBasicBlock_runs st).bind fun condAcc st1 ⟨hco, hsize1, b1⟩ => ?_
    refine (newBasicBlock_runs st1).bind fun bodyAcc st2 ⟨hbo, hsize2, b2⟩ => ?_
    refine (newBasicBlock_runs st2).bind fun following st3 ⟨hfo, hsize3, b3⟩ => ?_
    subst hco hbo hfo
    have hacc := hopen.1
    have hr3 := ((hr.builds b1).builds b2).builds b3
    have ocond := ((b1.opened _ rfl).1.frame b2 id).frame b3 id
    have obody := (b2.opened _ rfl).1.frame b3 id
    refine (hinit.thenCommit hr3 (((hopen.frame b1 id).frame b2 id).frame b3 id) ocond.1).bindTwo
      fun _ st4 b4 => ?_
    have hle := b4.size_le
    refine (hcond.builds (hr3.builds b4) (ocond.frame b4 hacc.ne') (by simp only; omega)
      (by simp only; omega)).bind fun _ st5 b5 => ?_
    have hle' := b5.size_le
    have hloop := hbody.loopBody ⟨st1.blockGraph.size, []⟩ st.blockGraph.size st2.blockGraph.size
      ((obody.frame b4 (by omega)).frame b5 (by simp only; omega)) (by omega) (by omega)
    simp only [bind_assoc] at hloop
    exact hloop.bind fun _ _ _ => .pure trivial
  | _, .breakStatement, hl => by
    obtain rfl := hl
    exact jump_goes (f := LoopEnv.breakBlockId) (fun _ => rfl) (fun st k henv hk => henv.2 k hk)
      fun st hr => (hr.known rfl).2
  | _, .continueStatement, hl => by
    obtain rfl := hl
    exact jump_goes (f := LoopEnv.continueBlockId) (fun _ => rfl) (fun st k henv hk => henv.1 k hk)
      fun st hr => (hr.known rfl).1
  | _, .exitStatement, _ => (appendInstructionsM_goes _).leave
  | _, .returnStatement, _ => (appendInstructionsM_goes _).leave
  | loop, .returnValueStatement expr, he => by
    have h : Goes loop _ := (he.goes.value.seq
      (appendInstructionsM_goes [.return (typeOf expr)])).leave
    refine ⟨(buildIRStatement_spec _).weaken, fun st acc hr hopen => ?_⟩
    have hrun := h.runs hr hopen
    simp only [bind_assoc] at hrun
    exact hrun
  | _, .expressionStatement expr, he => he.goes.void
  | _, .empty, _ => pure_goes

theorem buildIRStatements_goes : ∀ {loop : Bool} (ss : List TStatement),
    StmtsChecked (Folded tables) loop ss → Goes loop (buildIRStatements ss)
  | _, [], _ => pure_goes
  | _, s :: ss, ⟨hs, hss⟩ => (buildIRStatement_goes s hs).seq (buildIRStatements_goes ss hss)

end

/-! ## Methods and programs -/

theorem buildBody_runs {stats : List TStatement} (h : StmtsChecked (Folded tables) false stats) :
    Runs (buildBody stats) emptyState fun _ _ => True := by
  have hempty : Ready false emptyState :=
    ⟨⟨fun _ h => (nomatch h), fun _ h => (nomatch h)⟩, fun h => (nomatch h)⟩
  refine (newBasicBlock_runs emptyState).bind fun acc st1 ⟨hacc, _, b1⟩ => ?_
  subst hacc
  refine ((buildIRStatements_goes stats h).builds (hempty.builds b1) (b1.opened _ rfl).1).bind
    fun acc2 st2 b2 => ?_
  exact (commitBasicBlock_runs (b2.opened _ rfl).1 (.inl rfl) (by simp)).mono fun _ _ _ => trivial

theorem updateNodes_runs (fn : List IRInstruction → List IRInstruction) : ∀ (ns : List Nat)
    (g : IRGraph IRInstruction), (∀ n ∈ ns, (g.node n).isSome = true) →
      ∃ g', updateNodes fn g ns = .ok g'
  | [], g, _ => ⟨g, rfl⟩
  | n :: ns, g, h => by
    obtain ⟨b, hb⟩ := Option.isSome_iff_exists.mp (h n List.mem_cons_self)
    have hset : updateNode fn g n = .ok (g.set n (some { b with instrs := fn b.instrs })) := by
      simp [updateNode, matchThrows, hb, maybeToError, bind, Except.bind]
    have hnodes : ∀ k ∈ ns, ((g.set n (some { b with instrs := fn b.instrs })).node k).isSome = true := by
      intro k hk
      show (if k = n then _ else g.node k).isSome = true
      split
      · rfl
      · exact h k (List.mem_cons_of_mem n hk)
    obtain ⟨g', hg'⟩ := updateNodes_runs fn ns _ hnodes
    exact ⟨g', bind_eq_ok.mpr ⟨_, hset, hg'⟩⟩

/-- The error of a method that can end without a return. -/
def missingReturn (m : TMethod) : CompileError :=
  .noReturnError ("Method " ++ toString m.id ++ " missing return")

/-- A checked method has a graph, or misses a return. -/
theorem buildIRMethod_runs {m : TMethod} (h : StmtsChecked (Folded tables) false m.body) :
    (∃ irm, buildIRMethod m = .ok irm ∧ irm.id = m.id) ∨
      m.retType ≠ .void ∧ buildIRMethod m = .error (missingReturn m) := by
  obtain ⟨u, st, hbody, -⟩ := buildBody_runs h
  have hmethod : buildIRMethod m = (checkReturns m.id (cleanGraph st.blockGraph) m.retType >>=
      fun g => .ok ⟨m.id, m.argTypes, g, m.vars⟩) := by
    show (buildBody m.body emptyState >>= _) = _
    rw [hbody]
    rfl
  have hvalue : ∀ t, t ≠ .void → (checkReturns m.id (cleanGraph st.blockGraph) t =
        if noReturnExitBlocks (cleanGraph st.blockGraph) = [] then .ok (cleanGraph st.blockGraph)
        else .error (missingReturn m)) := by
    intro t ht
    cases t with
    | void => exact absurd rfl ht
    | byte | short => rfl
  rw [hmethod]
  by_cases hret : m.retType = .void
  · left
    have hnodes : ∀ n ∈ noReturnExitBlocks (cleanGraph st.blockGraph),
        ((cleanGraph st.blockGraph).node n).isSome = true :=
      fun n hn => (List.mem_filter.mp (List.mem_of_mem_filter hn)).2
    obtain ⟨g', hg'⟩ := updateNodes_runs (· ++ [.return .void]) _ _ hnodes
    have hcheck : checkReturns m.id (cleanGraph st.blockGraph) m.retType = .ok g' := by
      rw [hret]
      exact hg'
    rw [hcheck]
    exact ⟨_, rfl, rfl⟩
  · rw [hvalue _ hret]
    split
    · exact .inl ⟨_, rfl, rfl⟩
    · exact .inr ⟨hret, rfl⟩

/-- A list of methods: graphs for all of them, or the error of the first that misses a return. -/
theorem mapM_buildIRMethod : ∀ (ms : List TMethod),
    (∀ m ∈ ms, ∃ tables, StmtsChecked (Folded tables) false m.body) →
      (∃ irs, ms.mapM buildIRMethod = .ok irs ∧ irs.map (·.id) = ms.map (·.id)) ∨
        ∃ m ∈ ms, m.retType ≠ .void ∧ ms.mapM buildIRMethod = .error (missingReturn m)
  | [], _ => .inl ⟨[], rfl, rfl⟩
  | m :: ms, h => by
    obtain ⟨tables, hm⟩ := h m List.mem_cons_self
    have hms := mapM_buildIRMethod ms fun m' hm' => h m' (List.mem_cons_of_mem m hm')
    rw [List.mapM_cons]
    obtain ⟨irm, hirm, hid⟩ | ⟨hret, herr⟩ := buildIRMethod_runs hm
    · rw [hirm]
      obtain ⟨irs, hirs, hids⟩ | ⟨m', hm', hret, herr⟩ := hms
      · rw [hirs]
        exact .inl ⟨irm :: irs, rfl, by rw [List.map_cons, hid, hids, List.map_cons]⟩
      · rw [herr]
        exact .inr ⟨m', List.mem_cons_of_mem m hm', hret, rfl⟩
    · rw [herr]
      exact .inr ⟨m, List.mem_cons_self, hret, rfl⟩

/-- **Later phases do not fail.** In a program that the type checker accepts, folding keeps the type
    of every expression and of all its parts and leaves no comparison of two zeros; and the folded
    program has a graph for each method, or a method that misses a return.  Exceptions of the folder's
    arithmetic are no condition: the model folds such a quotient to some literal. -/
theorem buildTProgram_buildIR {decs : List Declaration} {p : TProgram}
    (h : buildTProgram decs = .ok p) :
    (∀ m ∈ p.methods, StmtsChecked (EveryPart (fun _ => FoldsTyped (p.tables m)) false) false m.body) ∧
      ((∃ ir, buildIR (constantEvalProgram p) = .ok ir ∧
          ir.methods.map (·.id) = p.methods.map (·.id)) ∨
        ∃ m ∈ p.methods, m.retType ≠ .void ∧
          buildIR (constantEvalProgram p) = .error (missingReturn m)) := by
  have hp := buildTProgram_checked h
  refine ⟨fun m hm => StmtsChecked.mono (fun e he => he.foldsTyped e) _ (hp.bodies m hm), ?_⟩
  have hfolded : ∀ m ∈ (constantEvalProgram p).methods,
      ∃ tables, StmtsChecked (Folded tables) false m.body := by
    intro m' hm'
    obtain ⟨m, hm, rfl⟩ := List.mem_map.mp hm'
    exact ⟨p.tables m, StmtsChecked.exMap (fun e he =>
      ⟨(constantEval_wellTyped e he).2, constantEval_noZero e he⟩) _ (hp.bodies m hm)⟩
  show (∃ ir, ((constantEvalProgram p).methods.mapM buildIRMethod >>= _) = _ ∧ _) ∨
    ∃ m ∈ p.methods, _ ∧ ((constantEvalProgram p).methods.mapM buildIRMethod >>= _) = _
  obtain ⟨irs, hirs, hids⟩ | ⟨m', hm', hret, herr⟩ := mapM_buildIRMethod _ hfolded
  · rw [hirs]
    refine .inl ⟨⟨irs, p.vars⟩, rfl, ?_⟩
    rw [hids]
    show (p.methods.map _).map _ = _
    rw [List.map_map]
    rfl
  · rw [herr]
    obtain ⟨m, hm, rfl⟩ := List.mem_map.mp hm'
    exact .inr ⟨m, hm, hret, rfl⟩

/-- `byte main() { byte x = 3; while (x > 0 == 0) { x--; if (0 == 0) break; } return x; }` -/
def leaveLoop : List Declaration :=
  [.methodDeclaration .byte "main" []
    [.variableDeclarationStatement .byte "x" (some (.byteLiteral 3)),
      .whileStatement
        (.binaryExpression (.binaryExpression (.variableAccess "x") .gt (.byteLiteral 0)) .eq
          (.byteLiteral 0))
        (.block [.expressionStatement (.postfixExpression (.variableAccess "x") .postdecrement),
          .ifStatement (.binaryExpression (.byteLiteral 0) .eq (.byteLiteral 0)) .breakStatement
            none]),
      .returnValueStatement (.variableAccess "x")]]

theorem buildTProgram_buildIR_leaveLoop : ∃ p, buildTProgram leaveLoop = .ok p ∧
    (∀ m ∈ p.methods, StmtsChecked (EveryPart (fun _ => FoldsTyped (p.tables m)) false) false m.body) ∧
      ((∃ ir, buildIR (constantEvalProgram p) = .ok ir ∧
          ir.methods.map (·.id) = p.methods.map (·.id)) ∨
        ∃ m ∈ p.methods, m.retType ≠ .void ∧
          buildIR (constantEvalProgram p) = .error (missingReturn m)) := by
  obtain ⟨p, hp⟩ : ∃ p, buildTProgram leaveLoop = .ok p := ⟨_, rfl⟩
  exact ⟨p, hp, buildTProgram_buildIR hp⟩

end KeyboardFirmware.Compiler
