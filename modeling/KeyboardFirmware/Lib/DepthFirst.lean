/-
  The depth-first order of a finite graph, by an explicit stack.

  A node that was visited, or is absent, is passed over; every other visit pushes the successors of
  the node.  Each visit spends fuel, and as no node is visited twice (`depthFirst_nodup`) as much
  fuel as there are nodes is enough: the order has exactly the nodes that can be reached
  (`mem_depthFirst_iff`).
-/
import Mathlib.Data.List.Nodup
import Mathlib.Data.List.TakeWhile
import Mathlib.Data.Finset.Card
import Mathlib.Logic.Relation

namespace KeyboardFirmware.Lib

variable {N : Type} [DecidableEq N] (succ : N → List N) (present : N → Bool)

/-- The nodes in the order of their visits. -/
def depthFirst : Nat → List N → List N → List N
  | 0, _, _ => []
  | fuel + 1, visited, stack =>
    match stack.dropWhile fun n => decide (n ∈ visited) || !present n with
    | [] => []
    | v :: vs => v :: depthFirst fuel (v :: visited) (succ v ++ vs)

/-- What one visit does: the stack is spent, or its first node that is new and present is visited. -/
theorem depthFirst_cases (fuel : Nat) (visited stack : List N) :
    (depthFirst succ present (fuel + 1) visited stack = [] ∧
      ∀ n ∈ stack, n ∈ visited ∨ present n = false) ∨
    ∃ old v vs, stack = old ++ v :: vs ∧ (∀ n ∈ old, n ∈ visited ∨ present n = false) ∧
      v ∉ visited ∧ present v = true ∧
      depthFirst succ present (fuel + 1) visited stack =
        v :: depthFirst succ present fuel (v :: visited) (succ v ++ vs) := by
  have hskip : ∀ l : List N,
      ∀ n ∈ l.takeWhile fun n => decide (n ∈ visited) || !present n,
        n ∈ visited ∨ present n = false := fun l n hn => by
    simpa using List.mem_takeWhile_imp hn
  cases hd : stack.dropWhile fun n => decide (n ∈ visited) || !present n with
  | nil =>
    refine .inl ⟨by simp only [depthFirst, hd], fun n hn => ?_⟩
    have hall : stack.takeWhile (fun n => decide (n ∈ visited) || !present n) ++
        stack.dropWhile (fun n => decide (n ∈ visited) || !present n) = stack :=
      List.takeWhile_append_dropWhile
    rw [hd, List.append_nil] at hall
    exact hskip stack n (by rw [hall]; exact hn)
  | cons v vs =>
    have hv : (decide (v ∈ visited) || !present v) = false := by
      have h := List.head?_dropWhile_not (fun n => decide (n ∈ visited) || !present n) stack
      simpa only [hd, List.head?_cons] using h
    simp only [ Bool.or_eq_false_iff, decide_eq_false_iff_not,
      Bool.not_eq_false'] at hv
    refine .inr ⟨_, v, vs, ?_, hskip stack, hv.1, hv.2, by simp only [depthFirst, hd]⟩
    rw [← hd, List.takeWhile_append_dropWhile]

/-- No node is visited twice, and only new, present nodes are. -/
theorem depthFirst_nodup (fuel : Nat) :
    ∀ visited stack, (depthFirst succ present fuel visited stack).Nodup ∧
      ∀ n ∈ depthFirst succ present fuel visited stack, n ∉ visited ∧ present n = true := by
  induction fuel with
  | zero => intro visited stack; simp [depthFirst]
  | succ fuel ih =>
    intro visited stack
    rcases depthFirst_cases succ present fuel visited stack with
      ⟨hnil, -⟩ | ⟨old, v, vs, -, -, hv, hpres, hcons⟩
    · rw [hnil]
      simp
    · obtain ⟨hnodup, hnew⟩ := ih (v :: visited) (succ v ++ vs)
      rw [hcons]
      refine ⟨List.nodup_cons.mpr ⟨fun h => (hnew v h).1 (by simp), hnodup⟩, ?_⟩
      intro n hn
      rcases List.mem_cons.mp hn with rfl | hn
      · exact ⟨hv, hpres⟩
      · exact ⟨fun h => (hnew n hn).1 (List.mem_cons_of_mem _ h), (hnew n hn).2⟩

/-- The relation of a node to its successors. -/
def Leads (a b : N) : Prop := b ∈ succ a

/-- Every visited node is reached from the stack. -/
theorem depthFirst_reached (fuel : Nat) :
    ∀ visited stack, ∀ n ∈ depthFirst succ present fuel visited stack,
      ∃ s ∈ stack, Relation.ReflTransGen (Leads succ) s n := by
  induction fuel with
  | zero => intro visited stack n hn; simp [depthFirst] at hn
  | succ fuel ih =>
    intro visited stack n hn
    rcases depthFirst_cases succ present fuel visited stack with
      ⟨hnil, -⟩ | ⟨old, v, vs, rfl, -, -, -, hcons⟩
    · rw [hnil] at hn
      simp at hn
    · rw [hcons] at hn
      rcases List.mem_cons.mp hn with rfl | hn
      · exact ⟨n, by simp, .refl⟩
      · obtain ⟨s, hs, hpath⟩ := ih _ _ n hn
        rcases List.mem_append.mp hs with hs | hs
        · exact ⟨v, by simp, .head hs hpath⟩
        · exact ⟨s, by simp [hs], hpath⟩

/-- The search ends with its fuel, or when everything the stack and its visits lead to is visited. -/
theorem depthFirst_closed (fuel : Nat) :
    ∀ visited stack, (depthFirst succ present fuel visited stack).length = fuel ∨
      (∀ s ∈ stack, present s = true →
        s ∈ visited ∨ s ∈ depthFirst succ present fuel visited stack) ∧
      ∀ v ∈ depthFirst succ present fuel visited stack, ∀ w ∈ succ v, present w = true →
        w ∈ visited ∨ w ∈ depthFirst succ present fuel visited stack := by
  induction fuel with
  | zero => intro visited stack; exact .inl rfl
  | succ fuel ih =>
    intro visited stack
    rcases depthFirst_cases succ present fuel visited stack with
      ⟨hnil, hold⟩ | ⟨old, v, vs, rfl, hold, -, -, hcons⟩
    · right
      rw [hnil]
      refine ⟨fun s hs hpres => .inl ?_, by simp⟩
      exact (hold s hs).resolve_right (by simp [hpres])
    · rw [hcons]
      rcases ih (v :: visited) (succ v ++ vs) with hlen | ⟨hstack, hclosed⟩
      · exact .inl (by simp [hlen])
      · have hmove : ∀ {w}, w ∈ v :: visited ∨
            w ∈ depthFirst succ present fuel (v :: visited) (succ v ++ vs) →
            w ∈ visited ∨ w ∈ v :: depthFirst succ present fuel (v :: visited) (succ v ++ vs) := by
          intro w hw
          simp only [List.mem_cons] at hw ⊢
          tauto
        refine .inr ⟨fun s hs hpres => ?_, fun u hu w hw hpres => ?_⟩
        · rcases List.mem_append.mp hs with hs | hs
          · exact .inl ((hold s hs).resolve_right (by simp [hpres]))
          · rcases List.mem_cons.mp hs with rfl | hs
            · exact .inr (by simp)
            · exact hmove (hstack s (by simp [hs]) hpres)
        · rcases List.mem_cons.mp hu with rfl | hu
          · exact hmove (hstack w (by simp [hw]) hpres)
          · exact hmove (hclosed u hu w hw hpres)

variable {succ present}

/-- With as much fuel as there are nodes, the order from a node has exactly what it leads to. -/
theorem mem_depthFirst_iff {fuel : Nat} {s : N} {all : List N}
    (hall : ∀ n, Relation.ReflTransGen (Leads succ) s n → n ∈ all) (hfuel : all.length ≤ fuel)
    (hs : present s = true) (hsucc : ∀ v, present v = true → ∀ w ∈ succ v, present w = true) (n : N) :
    n ∈ depthFirst succ present fuel [] [s] ↔ Relation.ReflTransGen (Leads succ) s n := by
  have hreach : ∀ m ∈ depthFirst succ present fuel [] [s], Relation.ReflTransGen (Leads succ) s m := by
    intro m hm
    obtain ⟨s', hs', hpath⟩ := depthFirst_reached succ present fuel [] [s] m hm
    rwa [List.mem_singleton.mp hs'] at hpath
  constructor
  · exact hreach n
  · intro hpath
    obtain ⟨hnodup, hnew⟩ := depthFirst_nodup succ present fuel [] [s]
    rcases depthFirst_closed succ present fuel [] [s] with hlen | ⟨hstack, hclosed⟩
    · -- the fuel is spent: as many nodes as there are were visited
      have hsub : (depthFirst succ present fuel [] [s]).toFinset ⊆ all.toFinset := by
        intro m hm
        exact List.mem_toFinset.mpr (hall m (hreach m (List.mem_toFinset.mp hm)))
      have hcard : all.toFinset.card ≤ (depthFirst succ present fuel [] [s]).toFinset.card := by
        rw [List.toFinset_card_of_nodup hnodup, hlen]
        exact (List.toFinset_card_le all).trans hfuel
      rw [← List.mem_toFinset, Finset.eq_of_subset_of_card_le hsub hcard]
      exact List.mem_toFinset.mpr (hall n hpath)
    · induction hpath with
      | refl => simpa using hstack s (by simp) hs
      | tail _ hstep ih =>
        simpa using hclosed _ ih _ hstep (hsucc _ (hnew _ ih).2 _ hstep)

/-- The search starts with the node it is given. -/
theorem depthFirst_head {fuel : Nat} (hfuel : 0 < fuel) {s : N} (hs : present s = true) :
    (depthFirst succ present fuel [] [s]).head? = some s := by
  obtain ⟨fuel, rfl⟩ := Nat.exists_eq_succ_of_ne_zero hfuel.ne'
  simp [depthFirst, List.dropWhile, hs]

end KeyboardFirmware.Lib
