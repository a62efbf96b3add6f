/-
  What a run of the graph builder does to the graph.

  A run takes some open (empty, uncommitted) nodes, makes new ones, and leaves some of all these
  open; `Builds` says that it leaves every other node alone and that the nodes it closes have edges
  of the right shape to nodes of the graph.  Runs compose (`Builds.trans`), and what a run has
  closed no later run changes, so that it can be read off in the final graph (`Final`).
-/
import KeyboardFirmware.Compiler.Output

namespace KeyboardFirmware.Compiler

/-! ## Running the builder -/

theorem state_bind_ok {α β : Type} {x : ThrowsBlockingState α} {f : α → ThrowsBlockingState β}
    {st : BlockingState} {r : β × BlockingState} :
    (x >>= f) st = .ok r ↔ ∃ a st1, x st = .ok (a, st1) ∧ f a st1 = .ok r := by
  show (x st >>= fun p => f p.1 p.2) = .ok r ↔ _
  rw [bind_eq_ok]
  constructor
  · rintro ⟨⟨a, st1⟩, h1, h2⟩
    exact ⟨a, st1, h1, h2⟩
  · rintro ⟨a, st1, h1, h2⟩
    exact ⟨(a, st1), h1, h2⟩

theorem state_pure_ok {α : Type} {a : α} {st : BlockingState} {r : α × BlockingState} :
    (pure a : ThrowsBlockingState α) st = .ok r ↔ r = (a, st) := by
  show Except.ok (a, st) = .ok r ↔ _
  rw [Except.ok.injEq, eq_comm]

theorem state_get_ok {st : BlockingState} {r : BlockingState × BlockingState} :
    (get : ThrowsBlockingState BlockingState) st = .ok r ↔ r = (st, st) := state_pure_ok

theorem state_lift_ok {α : Type} {x : ThrowsError α} {st : BlockingState} {r : α × BlockingState} :
    (x : ThrowsBlockingState α) st = .ok r ↔ ∃ a, x = .ok a ∧ r = (a, st) := by
  show (x >>= fun a => Except.ok (a, st)) = .ok r ↔ _
  rw [bind_eq_ok]
  simp only [Except.ok.injEq, eq_comm]

/-! ## Edges and open nodes -/

/-- The edges of a committed block: none, a default edge, or a conditional edge before it. -/
def EdgeShape (es : List (IREdge × Nat)) : Prop :=
  es = [] ∨ (∃ d, es = [(.default, d)]) ∨ ∃ c i d, es = [(.conditional c, i), (.default, d)]

variable {α : Type}

/-- A node that was made and not committed. -/
def OpenAt (g : IRGraph α) (n : Nat) : Prop := n < g.size ∧ g.node n = some ⟨[], []⟩

/-- A committed node. -/
def Done (g : IRGraph α) (n : Nat) : Prop :=
  ∃ b, g.node n = some b ∧ EdgeShape b.edges ∧ ∀ e ∈ b.edges, e.2 < g.size

/-- A run that starts with the nodes `A` open and ends with the nodes `O` open. -/
structure Builds (st : BlockingState) (A : Nat → Prop) (st' : BlockingState) (O : Nat → Prop) :
    Prop where
  continueBlockId : st'.continueBlockId = st.continueBlockId
  breakBlockId : st'.breakBlockId = st.breakBlockId
  size_le : st.blockGraph.size ≤ st'.blockGraph.size
  beyond : ∀ n, st'.blockGraph.size ≤ n → st'.blockGraph.node n = st.blockGraph.node n
  frame : ∀ n < st.blockGraph.size, ¬ A n → st'.blockGraph.node n = st.blockGraph.node n
  done : ∀ n < st'.blockGraph.size, A n ∨ st.blockGraph.size ≤ n → ¬ O n → Done st'.blockGraph n
  opened : ∀ n, O n → OpenAt st'.blockGraph n ∧ (A n ∨ st.blockGraph.size ≤ n)

/-- The graph `G` has what the run has closed. -/
def Final (G : IRGraph IRInstruction) (st : BlockingState) (A : Nat → Prop) (st' : BlockingState)
    (O : Nat → Prop) : Prop :=
  ∀ n < st'.blockGraph.size, A n ∨ st.blockGraph.size ≤ n → ¬ O n →
    G.node n = st'.blockGraph.node n

namespace Builds

variable {st st1 st2 : BlockingState} {A O A1 O1 O2 : Nat → Prop} {G : IRGraph IRInstruction}

theorem refl (st : BlockingState) (A : Nat → Prop) (hA : ∀ n, A n → OpenAt st.blockGraph n) :
    Builds st A st A where
  continueBlockId := rfl
  breakBlockId := rfl
  size_le := Nat.le_refl _
  beyond _ _ := rfl
  frame _ _ _ := rfl
  done _ hn h hO := h.elim (fun h => absurd h hO) fun h => absurd hn (Nat.not_lt.mpr h)
  opened n h := ⟨hA n h, .inl h⟩

/-- One run after the other: the second takes some of the nodes that the first leaves open. -/
theorem trans (h1 : Builds st A st1 O1) (h2 : Builds st1 A1 st2 O2) (hsub : ∀ n, A1 n → O1 n) :
    Builds st A st2 fun n => (O1 n ∧ ¬ A1 n) ∨ O2 n where
  continueBlockId := h2.continueBlockId.trans h1.continueBlockId
  breakBlockId := h2.breakBlockId.trans h1.breakBlockId
  size_le := h1.size_le.trans h2.size_le
  beyond n hn := (h2.beyond n hn).trans (h1.beyond n (h2.size_le.trans hn))
  frame n hn hA := by
    have hO1 : ¬ O1 n := fun h => (h1.opened n h).2.elim hA fun h => absurd hn (Nat.not_lt.mpr h)
    rw [h2.frame n (hn.trans_le h1.size_le) fun h => hO1 (hsub n h), h1.frame n hn hA]
  done n hn hreg hO := by
    have hO2 : ¬ O2 n := fun h => hO (.inr h)
    by_cases hA1 : A1 n
    · exact h2.done n hn (.inl hA1) hO2
    · have hO1 : ¬ O1 n := fun h => hO (.inl ⟨h, hA1⟩)
      by_cases hlt : n < st1.blockGraph.size
      · obtain ⟨b, hb, hshape, htarget⟩ := h1.done n hlt hreg hO1
        rw [← h2.frame n hlt hA1] at hb
        exact ⟨b, hb, hshape, fun e he => (htarget e he).trans_le h2.size_le⟩
      · exact h2.done n hn (.inr (Nat.not_lt.mp hlt)) hO2
  opened n hn := by
    rcases hn with ⟨hO1, hA1⟩ | hO2
    · obtain ⟨⟨hlt, hopen⟩, hreg⟩ := h1.opened n hO1
      exact ⟨⟨hlt.trans_le h2.size_le, by rw [h2.frame n hlt hA1]; exact hopen⟩, hreg⟩
    · obtain ⟨hopen, hreg⟩ := h2.opened n hO2
      refine ⟨hopen, ?_⟩
      rcases hreg with hreg | hreg
      · exact (h1.opened n (hsub n hreg)).2
      · exact .inr (h1.size_le.trans hreg)

theorem congr {O' : Nat → Prop} (h : Builds st A st1 O) (hO : ∀ n, O n ↔ O' n) :
    Builds st A st1 O' := by
  rwa [show O' = O from funext fun n => propext (hO n).symm]

/-- Nodes that a run does not touch may be open. -/
theorem widen (h : Builds st A st1 O) (B : Nat → Prop) (hB : ∀ n, B n → OpenAt st.blockGraph n)
    (hdisj : ∀ n, B n → ¬ A n) : Builds st (fun n => A n ∨ B n) st1 (fun n => O n ∨ B n) where
  continueBlockId := h.continueBlockId
  breakBlockId := h.breakBlockId
  size_le := h.size_le
  beyond := h.beyond
  frame n hn hAB := h.frame n hn fun hA => hAB (.inl hA)
  done n hn hreg hO := by
    refine h.done n hn ?_ fun h => hO (.inl h)
    rcases hreg with (hA | hB) | hge
    · exact .inl hA
    · exact absurd (.inr hB) hO
    · exact .inr hge
  opened n hn := by
    rcases hn with hO | hBn
    · obtain ⟨hopen, hreg⟩ := h.opened n hO
      exact ⟨hopen, hreg.elim (fun h => .inl (.inl h)) .inr⟩
    · obtain ⟨hlt, hopen⟩ := hB n hBn
      exact ⟨⟨hlt.trans_le h.size_le, by rw [h.frame n hlt (hdisj n hBn)]; exact hopen⟩,
        .inl (.inr hBn)⟩

end Builds

namespace Final

variable {st st1 st2 : BlockingState} {A A1 O1 O2 : Nat → Prop} {G : IRGraph IRInstruction}

theorem left (h2 : Builds st1 A1 st2 O2) (hsub : ∀ n, A1 n → O1 n)
    (h : Final G st A st2 fun n => (O1 n ∧ ¬ A1 n) ∨ O2 n) : Final G st A st1 O1 := by
  intro n hn hreg hO1
  have hA1 : ¬ A1 n := fun h => hO1 (hsub n h)
  rw [← h2.frame n hn hA1]
  refine h n (hn.trans_le h2.size_le) hreg ?_
  rintro (⟨h, -⟩ | hO2)
  · exact hO1 h
  · exact (h2.opened n hO2).2.elim hA1 fun h => absurd hn (Nat.not_lt.mpr h)

theorem right (h1 : Builds st A st1 O1) (hsub : ∀ n, A1 n → O1 n)
    (h : Final G st A st2 fun n => (O1 n ∧ ¬ A1 n) ∨ O2 n) : Final G st1 A1 st2 O2 := by
  intro n hn hreg hO2
  refine h n hn ?_ ?_
  · rcases hreg with hreg | hreg
    · exact (h1.opened n (hsub n hreg)).2
    · exact .inr (h1.size_le.trans hreg)
  · rintro (⟨hO1, hA1⟩ | h)
    · rcases hreg with hreg | hreg
      · exact hA1 hreg
      · exact absurd (h1.opened n hO1).1.1 (Nat.not_lt.mpr hreg)
    · exact hO2 h

end Final

/-! ## The builder's own steps -/

theorem newBasicBlock_ok {st st' : BlockingState} {acc : BlockAccum}
    (h : newBasicBlock st = .ok (acc, st')) :
    acc = ⟨st.blockGraph.size, []⟩ ∧ st' = { st with blockGraph := st.blockGraph.insNode } := by
  cases h
  exact ⟨rfl, rfl⟩

theorem newBasicBlock_builds {st st' : BlockingState} {acc : BlockAccum}
    (h : newBasicBlock st = .ok (acc, st')) :
    acc = ⟨st.blockGraph.size, []⟩ ∧ st'.blockGraph.size = st.blockGraph.size + 1 ∧
      Builds st (fun _ => False) st' (fun n => n = st.blockGraph.size) := by
  obtain ⟨rfl, rfl⟩ := newBasicBlock_ok h
  refine ⟨rfl, rfl, rfl, rfl, Nat.le_succ _, ?_, ?_, ?_, ?_⟩
  · intro n hn
    show (if n = st.blockGraph.size then _ else _) = _
    exact if_neg fun h => absurd (show st.blockGraph.size + 1 ≤ n from hn) (by omega)
  · intro n hn _
    show (if n = st.blockGraph.size then _ else _) = _
    rw [if_neg (by omega)]
  · intro n hn hreg hO
    have hlt : n < st.blockGraph.size + 1 := hn
    have hne : n ≠ st.blockGraph.size := hO
    rcases hreg with h | h
    · exact h.elim
    · omega
  · rintro n rfl
    exact ⟨⟨Nat.lt_succ_self _, if_pos rfl⟩, .inr (Nat.le_refl _)⟩

theorem foldl_insEdge (src : Nat) (es : List (IREdge × Nat)) :
    ∀ (g : IRGraph α) (b : IRNode α), g.node src = some b →
      (es.foldl (insEdge src) g).size = g.size ∧
        (es.foldl (insEdge src) g).node src = some { b with edges := b.edges ++ es } ∧
        ∀ n, n ≠ src → (es.foldl (insEdge src) g).node n = g.node n := by
  induction es with
  | nil => intro g b hb; exact ⟨rfl, by simpa using hb, fun _ _ => rfl⟩
  | cons e es ih =>
    intro g b hb
    have hnode : (insEdge src g e).node src = some { b with edges := b.edges ++ [e] } := by
      show (if src = src then _ else _) = _
      rw [if_pos rfl, hb]
      rfl
    obtain ⟨hsize, hsrc, hframe⟩ := ih _ _ hnode
    refine ⟨hsize, by simpa using hsrc, fun n hn => ?_⟩
    rw [List.foldl_cons, hframe n hn]
    show (if n = src then _ else _) = _
    rw [if_neg hn]

theorem updateBlockContents_open {g : IRGraph IRInstruction} {acc : BlockAccum}
    (hopen : OpenAt g acc.id) :
    updateBlockContents acc g = .ok (g.set acc.id (some ⟨acc.revInstrs.reverse, []⟩)) := by
  simp [updateBlockContents, updateNode, matchThrows, hopen.2, maybeToError, guardError, bind,
    Except.bind]

/-- Committing an open block puts its instructions and edges in place. -/
theorem commitBasicBlock_ok {st st' : BlockingState} {acc : BlockAccum}
    {es : List (IREdge × Nat)} {u : Unit} (hopen : OpenAt st.blockGraph acc.id)
    (h : commitBasicBlock es acc st = .ok (u, st')) :
    st'.continueBlockId = st.continueBlockId ∧ st'.breakBlockId = st.breakBlockId ∧
      st'.blockGraph.size = st.blockGraph.size ∧
      st'.blockGraph.node acc.id = some ⟨acc.revInstrs.reverse, es⟩ ∧
      ∀ n, n ≠ acc.id → st'.blockGraph.node n = st.blockGraph.node n := by
  simp only [commitBasicBlock, state_bind_ok, state_get_ok, state_lift_ok] at h
  obtain ⟨_, _, ⟨rfl, rfl⟩, g, _, ⟨_, hg, ⟨rfl, rfl⟩⟩, h⟩ := h
  rw [updateBlockContents_open hopen] at hg
  cases hg
  cases h
  obtain ⟨hsize, hsrc, hframe⟩ := foldl_insEdge acc.id es
    (st.blockGraph.set acc.id (some ⟨acc.revInstrs.reverse, []⟩)) ⟨acc.revInstrs.reverse, []⟩
    (if_pos rfl)
  refine ⟨rfl, rfl, hsize, hsrc, fun n hn => ?_⟩
  rw [hframe n hn]
  exact if_neg hn

theorem commitBasicBlock_builds {st st' : BlockingState} {acc : BlockAccum}
    {es : List (IREdge × Nat)} {u : Unit} (hopen : OpenAt st.blockGraph acc.id)
    (hshape : EdgeShape es) (htarget : ∀ e ∈ es, e.2 < st.blockGraph.size)
    (h : commitBasicBlock es acc st = .ok (u, st')) :
    st'.blockGraph.size = st.blockGraph.size ∧
      st'.blockGraph.node acc.id = some ⟨acc.revInstrs.reverse, es⟩ ∧
      Builds st (fun n => n = acc.id) st' (fun _ => False) := by
  obtain ⟨hcont, hbreak, hsize, hsrc, hframe⟩ := commitBasicBlock_ok hopen h
  have hid := hopen.1
  refine ⟨hsize, hsrc, hcont, hbreak, hsize.ge, fun n hn => hframe n (by omega),
    fun n _ hn => hframe n hn, ?_, fun _ h => h.elim⟩
  intro n hn hreg _
  rcases hreg with rfl | hge
  · exact ⟨_, hsrc, hshape, fun e he => hsize ▸ htarget e he⟩
  · omega

end KeyboardFirmware.Compiler
