/-
  Places in the graph of a method.

  A run of the graph stays inside its blocks: at every place it executes an instruction or jumps from
  the end of a block.  A block without edges ends in a return or an exit, so one that comes to its end
  has passed this (`LeavesAt.returns`).
-/
import KeyboardFirmware.Compiler.Loops
import KeyboardFirmware.Compiler.MissingReturn

namespace KeyboardFirmware.Compiler

open Lib

variable {σ : Type} {M : BlockMachine σ} {G : IRGraph IRInstruction} {p q : Pos}

/-- A place of the graph that can be reached. -/
def InGraph (G : IRGraph IRInstruction) (p : Pos) : Prop :=
  G.Reachable p.1 ∧ ∀ b, G.node p.1 = some b → p.2 ≤ b.instrs.length

theorem InGraph.start (G : IRGraph IRInstruction) : InGraph G (0, 0) :=
  ⟨.refl, fun _ _ => Nat.zero_le _⟩

theorem jumpFrom_zero {es : List (IREdge × Nat)} {s : σ} {x : Pos × σ}
    (h : jumpFrom M es s = some x) : x.1.2 = 0 := by
  unfold jumpFrom at h
  split at h
  · obtain rfl := Option.some.inj h
    rfl
  · obtain rfl := Option.some.inj h
    rfl
  · cases h

/-- A step executes the instruction at its place, or jumps from the end of the block. -/
theorem graphStep_cases {s s' : σ} (hstep : graphStep M G (p, s) = some (q, s')) (hp : InGraph G p) :
    (∃ i, InstrsAt G [i] p q ∧ s' = M.exec i s) ∨
      ∃ es, EndsAt G p es ∧ jumpFrom M es s = some (q, s') := by
  obtain ⟨n, j⟩ := p
  cases hb : G.node n with
  | none =>
    simp only [graphStep, hb] at hstep
    cases hstep
  | some b =>
    cases hi : b.instrs[j]? with
    | some i =>
      rw [graphStep_instr hb hi] at hstep
      obtain ⟨rfl, rfl⟩ := Prod.mk.inj (Option.some.inj hstep)
      obtain ⟨hlt, rfl⟩ := List.getElem?_eq_some_iff.mp hi
      exact .inl ⟨_, ⟨rfl, b, hb, _, (List.drop_eq_getElem_cons hlt).symm⟩, rfl⟩
    | none =>
      have hends : EndsAt G (n, j) b.edges :=
        ⟨b, hb, le_antisymm (List.getElem?_eq_none_iff.mp hi) (hp.2 b hb), rfl⟩
      rw [graphStep_end hends] at hstep
      exact .inr ⟨_, hends, hstep⟩

theorem InstrsAt.inside {is : List IRInstruction} (h : InstrsAt G is p q) (hp : InGraph G p) :
    InGraph G q := by
  obtain ⟨rfl, b, hb, rest, hrest⟩ := h
  refine ⟨hp.1, fun b' hb' => ?_⟩
  obtain rfl := Option.some.inj (hb.symm.trans hb')
  have hlen := congrArg List.length hrest
  have hle := hp.2 b hb
  rw [List.length_append, List.length_drop] at hlen
  dsimp only
  omega

theorem EndsAt.inside {es : List (IREdge × Nat)} (h : EndsAt G p es) (hp : InGraph G p) {s s' : σ}
    (hjump : jumpFrom M es s = some (q, s')) : InGraph G q := by
  obtain ⟨b, hb, -, rfl⟩ := h
  obtain ⟨e, he, htarget⟩ := jumpFrom_some hjump
  refine ⟨htarget ▸ hp.1.edge hb he, fun b' _ => ?_⟩
  rw [jumpFrom_zero hjump]
  exact Nat.zero_le _

theorem graphSteps_inside {k : Nat} {x y : Pos × σ} (hrun : GraphSteps M G k x y)
    (hx : InGraph G x.1) : InGraph G y.1 := by
  induction hrun with
  | refl => exact hx
  | head _ hstep _ ih =>
    rcases graphStep_cases hstep hx with ⟨i, hin, -⟩ | ⟨es, hends, hjump⟩
    · exact ih (hin.inside hx)
    · exact ih (hends.inside hx hjump)

/-- The place right behind a return or an exit. -/
def Behind (G : IRGraph IRInstruction) (p : Pos) : Prop :=
  ∃ i q, InstrsAt G [i] q p ∧ isLeave i = true

theorem instrsAt_unique {i i' : IRInstruction} {p' : Pos}
    (h : InstrsAt G [i] p q) (h' : InstrsAt G [i'] p' q) : i = i' := by
  obtain ⟨n, j⟩ := p
  obtain ⟨n', j'⟩ := p'
  obtain ⟨rfl, b, hb, rest, hrest⟩ := h
  obtain ⟨hq, b', hb', rest', hrest'⟩ := h'
  obtain ⟨rfl, hj⟩ := Prod.mk.inj hq
  obtain rfl : j = j' := Nat.succ.inj hj
  obtain rfl := Option.some.inj (hb.symm.trans hb')
  have heq := hrest.trans hrest'.symm
  exact (List.cons.inj heq).1

/-- A method that has nothing to do and has not been left stands before a return. -/
theorem LeavesAt.returns
    (hret : ∀ n b, G.node n = some b → b.edges = [] → noReturnBlock b.instrs = false)
    (hleaves : LeavesAt G p) (hp : InGraph G p) (hbehind : ¬ Behind G p) :
    InstrsAt G [.return .void] p (p.1, p.2 + 1) := by
  obtain ⟨b, hb, hedges, hnil | hrest⟩ := hleaves
  · -- the last instruction of the block is a return or an exit
    have hno := hret _ _ hb hedges
    have hlen : b.instrs.length = p.2 := le_antisymm (List.drop_eq_nil_iff.mp hnil) (hp.2 b hb)
    cases hlast : b.instrs.getLast? with
    | none => simp [noReturnBlock, hlast] at hno
    | some i =>
      obtain ⟨is, his⟩ := List.getLast?_eq_some_iff.mp hlast
      refine absurd ⟨i, (p.1, is.length), ⟨?_, b, hb, [], ?_⟩, ?_⟩ hbehind
      · refine Prod.ext rfl ?_
        rw [← hlen, his, List.length_append]
      · rw [his, List.drop_left, List.append_nil]
      · rw [noReturnBlock, hlast] at hno
        cases i <;> first | rfl | cases hno
  · exact ⟨rfl, b, hb, [], by rw [List.append_nil, hrest]⟩

end KeyboardFirmware.Compiler
