/-
  A row of places, each free or holding one value.

  A free place is one that holds the value `free`.  What counts of a row is the list of values held,
  up to order: putting a value into the first free place adds it, freeing a place takes it away.
-/
import Mathlib.Data.List.Nodup
import Mathlib.Data.List.Perm.Subperm
import Mathlib.Tactic.Common

namespace KeyboardFirmware.Lib

variable {α : Type*} [DecidableEq α] {free a : α} {places : List α}

/-- The values held, in the order of their places. -/
def occupied (free : α) (places : List α) : List α := places.filter fun x => x ≠ free

theorem occupied_cons_free (free : α) (places : List α) :
    occupied free (free :: places) = occupied free places :=
  List.filter_cons_of_neg (by simp)

theorem occupied_cons_of_ne (h : a ≠ free) (places : List α) :
    occupied free (a :: places) = a :: occupied free places :=
  List.filter_cons_of_pos (by simpa using h)

theorem mem_occupied : a ∈ occupied free places ↔ a ∈ places ∧ a ≠ free := by
  simp [occupied]

theorem occupied_replicate (free : α) (n : Nat) : occupied free (List.replicate n free) = [] := by
  simp [occupied]

/-- A row with fewer values than places has a free one. -/
theorem free_mem_of_lt (h : (occupied free places).length < places.length) : free ∈ places := by
  by_contra hno
  refine absurd h (Nat.not_lt.mpr (Nat.le_of_eq ?_))
  have hall : occupied free places = places :=
    List.filter_eq_self.mpr fun x hx => decide_eq_true fun hfree : x = free => hno (hfree ▸ hx)
  rw [hall]

/-- **Putting a value** into the first free place. -/
theorem occupied_put (hne : a ≠ free) :
    free ∈ places → (occupied free (places.replace free a)).Perm (a :: occupied free places) := by
  induction places with
  | nil => exact fun h => absurd h List.not_mem_nil
  | cons x places ih =>
    intro h
    by_cases hx : x = free
    · subst hx
      rw [List.replace_cons_self, occupied_cons_of_ne hne, occupied_cons_free]
    · have hmem : free ∈ places := (List.mem_cons.mp h).resolve_left (Ne.symm hx)
      rw [List.replace_cons, beq_eq_false_iff_ne.mpr (Ne.symm hx)]
      show (occupied free (x :: places.replace free a)).Perm _
      rw [occupied_cons_of_ne hx, occupied_cons_of_ne hx]
      exact ((ih hmem).cons x).trans (List.Perm.swap a x _)

/-- **Freeing the place of a value**. -/
theorem occupied_free (hne : a ≠ free) :
    a ∈ places → (occupied free places).Perm (a :: occupied free (places.replace a free)) := by
  induction places with
  | nil => exact fun h => absurd h List.not_mem_nil
  | cons x places ih =>
    intro h
    by_cases hx : x = a
    · subst hx
      rw [List.replace_cons_self, occupied_cons_of_ne hne, occupied_cons_free]
    · have hmem : a ∈ places := (List.mem_cons.mp h).resolve_left (Ne.symm hx)
      rw [List.replace_cons, beq_eq_false_iff_ne.mpr (Ne.symm hx)]
      show (occupied free (x :: places)).Perm (a :: occupied free (x :: places.replace a free))
      by_cases hfree : x = free
      · subst hfree
        rw [occupied_cons_free, occupied_cons_free]
        exact ih hmem
      · rw [occupied_cons_of_ne hfree, occupied_cons_of_ne hfree]
        exact ((ih hmem).cons x).trans (List.Perm.swap a x _)

theorem occupied_reverse (free : α) (places : List α) :
    occupied free places.reverse = (occupied free places).reverse := List.filter_reverse

/-! ## Values behind one another -/

/-- The values that are not there yet. -/
def fresh (front values : List α) : List α := values.filter fun a => a ∉ front

/-- Values are put behind those that are there, each once, into `n` places at most. -/
def grow (n : Nat) (front values : List α) : List α := (front ++ fresh front values).take n

/-- The same for several rows of values, one after the other. -/
def growAll (n : Nat) (front : List α) (rows : List (List α)) : List α := rows.foldl (grow n) front

variable {n : Nat} {front start added values others : List α} {rows : List (List α)}

theorem length_grow_le (n : Nat) (front values : List α) : (grow n front values).length ≤ n :=
  List.length_take_le _ _

theorem prefix_grow (h : front.length ≤ n) (values : List α) : front <+: grow n front values :=
  List.prefix_take_iff.mpr ⟨List.prefix_append _ _, h⟩

theorem mem_of_mem_grow (h : a ∈ grow n front values) : a ∈ front ∨ a ∈ values := by
  rcases List.mem_append.mp (List.mem_of_mem_take h) with hfront | hfresh
  · exact .inl hfront
  · exact .inr (List.mem_of_mem_filter hfresh)

/-- No value comes twice. -/
theorem count_grow_le (n : Nat) (front : List α) (hnodup : values.Nodup) (a : α) :
    (grow n front values).count a ≤ max 1 (front.count a) := by
  have hsub : (grow n front values).count a ≤ (front ++ fresh front values).count a :=
    (List.take_sublist _ _).count_le a
  rw [List.count_append] at hsub
  by_cases hmem : a ∈ front
  · have hzero : (fresh front values).count a = 0 := by
      refine List.count_eq_zero.mpr fun hfresh => ?_
      simpa [hmem] using (List.mem_filter.mp hfresh).2
    omega
  · have hfront : front.count a = 0 := List.count_eq_zero.mpr hmem
    have hfresh : (fresh front values).count a ≤ 1 :=
      List.nodup_iff_count_le_one.mp (hnodup.filter _) a
    omega

theorem growAll_append (n : Nat) (front : List α) (rows rows' : List (List α)) :
    growAll n front (rows ++ rows') = growAll n (growAll n front rows) rows' := List.foldl_append

theorem length_growAll_le (h : front.length ≤ n) (rows : List (List α)) :
    (growAll n front rows).length ≤ n := by
  induction rows generalizing front with
  | nil => exact h
  | cons values rows ih => exact ih (length_grow_le n front values)

theorem prefix_growAll (h : front.length ≤ n) (rows : List (List α)) :
    front <+: growAll n front rows := by
  induction rows generalizing front with
  | nil => exact List.prefix_refl _
  | cons values rows ih =>
    exact (prefix_grow h values).trans (ih (length_grow_le n front values))

theorem mem_of_mem_growAll (h : a ∈ growAll n front rows) : a ∈ front ∨ ∃ values ∈ rows, a ∈ values := by
  induction rows generalizing front with
  | nil => exact .inl h
  | cons values rows ih =>
    rcases ih h with hgrow | ⟨row, hrow, hmem⟩
    · rcases mem_of_mem_grow hgrow with hfront | hvalues
      · exact .inl hfront
      · exact .inr ⟨values, List.mem_cons_self, hvalues⟩
    · exact .inr ⟨row, List.mem_cons_of_mem _ hrow, hmem⟩

theorem count_growAll_le (hnodup : ∀ values ∈ rows, values.Nodup) (a : α) :
    (growAll n front rows).count a ≤ max 1 (front.count a) := by
  induction rows generalizing front with
  | nil => exact Nat.le_max_right _ _
  | cons values rows ih =>
    have hfirst := count_grow_le n front (hnodup values List.mem_cons_self) a
    have hrest : (growAll n (grow n front values) rows).count a ≤ max 1 ((grow n front values).count a) :=
      ih fun row hrow => hnodup row (List.mem_cons_of_mem _ hrow)
    rw [growAll, List.foldl_cons]
    exact Nat.le_trans hrest (by omega)

/-- **All values** find their places, if those that are not at the start fit behind it. -/
theorem mem_growAll (hfits : start.length + others.length ≤ n) (hnodup : ∀ values ∈ rows, values.Nodup)
    (hcover : ∀ values ∈ rows, ∀ a ∈ values, a ∈ start ∨ a ∈ others) (hadded : added.Nodup)
    (hothers : ∀ a ∈ added, a ∈ others ∧ a ∉ start) :
    ∀ values ∈ rows, ∀ a ∈ values, a ∈ growAll n (start ++ added) rows := by
  induction rows generalizing added with
  | nil => exact nofun
  | cons row rows ih =>
    have hrow : row.Nodup := hnodup row List.mem_cons_self
    have hnext : (added ++ fresh (start ++ added) row).Nodup := by
      refine List.Nodup.append hadded (hrow.filter _) fun a ha hfresh => ?_
      simpa [ha] using (List.mem_filter.mp hfresh).2
    have hnextOthers : ∀ a ∈ added ++ fresh (start ++ added) row, a ∈ others ∧ a ∉ start := by
      intro a ha
      rcases List.mem_append.mp ha with ha | hfresh
      · exact hothers a ha
      · obtain ⟨hmem, hnot⟩ := List.mem_filter.mp hfresh
        have hstart : a ∉ start := fun hin => by simp [hin] at hnot
        exact ⟨(hcover row List.mem_cons_self a hmem).resolve_left hstart, hstart⟩
    have hlen : (added ++ fresh (start ++ added) row).length ≤ others.length :=
      (hnext.subperm fun a ha => (hnextOthers a ha).1).length_le
    have hgrow : grow n (start ++ added) row = start ++ (added ++ fresh (start ++ added) row) := by
      rw [grow, List.append_assoc, List.take_of_length_le]
      rw [List.length_append]
      omega
    rw [growAll, List.foldl_cons, hgrow]
    intro values hvalues a ha
    rcases List.mem_cons.mp hvalues with rfl | hvalues
    · have hin : a ∈ start ++ (added ++ fresh (start ++ added) values) := by
        by_cases hfront : a ∈ start ++ added
        · rw [← List.append_assoc]
          exact List.mem_append_left _ hfront
        · rw [← List.append_assoc]
          exact List.mem_append_right _ (List.mem_filter.mpr ⟨ha, by simpa using hfront⟩)
      refine (prefix_growAll ?_ rows).subset hin
      rw [List.length_append]
      omega
    · exact ih (fun v hv => hnodup v (List.mem_cons_of_mem _ hv))
        (fun v hv => hcover v (List.mem_cons_of_mem _ hv)) hnext hnextOthers values hvalues a ha

/-! ## A family of optional values -/

/-- When one member of a family goes from no value to a value, the list of values gains it. -/
theorem filterMap_gain {β γ : Type*} {a : γ} {f g : β → Option γ} {p : β} (hsame : ∀ q, q ≠ p → g q = f q)
    (hnone : f p = none) (hsome : g p = some a) :
    ∀ {l : List β}, l.Nodup → p ∈ l → (l.filterMap g).Perm (a :: l.filterMap f) := by
  intro l
  induction l with
  | nil => exact fun _ h => absurd h List.not_mem_nil
  | cons q l ih =>
    intro hnodup hmem
    obtain ⟨hq, hnodup⟩ := List.nodup_cons.mp hnodup
    by_cases hp : q = p
    · subst hp
      have hrest : l.filterMap g = l.filterMap f :=
        List.filterMap_congr fun x hx => hsame x fun heq => hq (heq ▸ hx)
      rw [List.filterMap_cons_some hsome, List.filterMap_cons_none hnone, hrest]
    · have hperm := ih hnodup ((List.mem_cons.mp hmem).resolve_left (Ne.symm hp))
      cases hf : f q with
      | none =>
        rw [List.filterMap_cons_none hf, List.filterMap_cons_none ((hsame q hp).trans hf)]
        exact hperm
      | some b =>
        rw [List.filterMap_cons_some hf, List.filterMap_cons_some ((hsame q hp).trans hf)]
        exact (hperm.cons b).trans (List.Perm.swap a b _)

end KeyboardFirmware.Lib
