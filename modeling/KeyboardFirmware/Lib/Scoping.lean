/-
  Lexical scopes as runs of events: entering a scope, leaving it, and declaring a name.

  A scope that was open before some events is still open behind them when they never leave it
  (`Encloses`).  This says which declarations are visible at a place and how far out (`DeclaredAt`),
  and which one a name stands for there (`Resolves`), without any table.  A compiler keeps a stack of
  tables (`Scopes`); what it finds there is what the events say (`resolves_of_lookup`).
-/
import Mathlib

namespace KeyboardFirmware.Lib

variable {α : Type*}

/-- What happens to the scopes. -/
inductive ScopeEvent (α : Type*) where
  | enter
  | leave
  | declare (a : α)
deriving DecidableEq, Repr

/-- How an event changes the depth. -/
def ScopeEvent.shift : ScopeEvent α → Int
  | .enter => 1
  | .leave => -1
  | .declare _ => 0

/-- How many scopes are open behind some events, counted from their beginning. -/
def depth (evs : List (ScopeEvent α)) : Int := (evs.map ScopeEvent.shift).sum

/-- The events never leave the scope they begin in. -/
def Inside (evs : List (ScopeEvent α)) : Prop := ∀ pre, pre <+: evs → 0 ≤ depth pre

/-- The scope open at the beginning of the events is still open at their end, `n` scopes further out. -/
structure Encloses (n : Nat) (evs : List (ScopeEvent α)) : Prop where
  inside : Inside evs
  depth_eq : depth evs = n

/-- The number of declarations. -/
def declarations (evs : List (ScopeEvent α)) : Nat :=
  evs.countP fun | .declare _ => true | _ => false

/-- Behind the events, the scope `n` scopes further out has the declaration number `k`, of the name `a`. -/
def DeclaredAt (evs : List (ScopeEvent α)) (a : α) (k n : Nat) : Prop :=
  ∃ before after, evs = before ++ .declare a :: after ∧ declarations before = k ∧ Encloses n after

/-- Behind the events, `a` stands for the declaration number `k`: it is in the innermost scope that
    declares the name. -/
def Resolves (evs : List (ScopeEvent α)) (a : α) (k : Nat) : Prop :=
  ∃ n, DeclaredAt evs a k n ∧ ∀ m < n, ∀ k', ¬ DeclaredAt evs a k' m

/-- No scope open behind the events declares the name. -/
def Undeclared (evs : List (ScopeEvent α)) (a : α) : Prop := ∀ k n, ¬ DeclaredAt evs a k n

/-- A declaration among `evs`, which come behind `before`, repeats a name of its own scope. -/
def Redeclares (before evs : List (ScopeEvent α)) : Prop :=
  ∃ mid a after, evs = mid ++ .declare a :: after ∧ ∃ k, DeclaredAt (before ++ mid) a k 0

/-! ## One event more -/

variable {evs xs ys : List (ScopeEvent α)} {e : ScopeEvent α} {a : α} {k n : Nat}

@[simp] theorem depth_nil : depth ([] : List (ScopeEvent α)) = 0 := rfl

@[simp] theorem depth_append (xs ys : List (ScopeEvent α)) : depth (xs ++ ys) = depth xs + depth ys := by
  rw [depth, List.map_append, List.sum_append, depth, depth]

@[simp] theorem depth_singleton (e : ScopeEvent α) : depth [e] = e.shift := by
  simp [depth]

theorem inside_nil : Inside ([] : List (ScopeEvent α)) := by
  intro pre hpre
  rw [List.prefix_nil.mp hpre]
  exact Int.le_refl 0

theorem Inside.depth_nonneg (h : Inside evs) : 0 ≤ depth evs := h evs (List.prefix_refl _)

theorem Inside.of_prefix (h : Inside evs) (hxs : xs <+: evs) : Inside xs :=
  fun pre hpre => h pre (hpre.trans hxs)

theorem inside_snoc : Inside (evs ++ [e]) ↔ Inside evs ∧ 0 ≤ depth evs + e.shift := by
  constructor
  · intro h
    refine ⟨h.of_prefix (List.prefix_append _ _), ?_⟩
    have hall := h.depth_nonneg
    rwa [depth_append, depth_singleton] at hall
  · rintro ⟨h, hall⟩ pre hpre
    rcases List.prefix_concat_iff.mp hpre with rfl | hpre
    · rw [depth_append, depth_singleton]
      exact hall
    · exact h pre hpre

theorem Inside.append (hx : Inside xs) (hy : Inside ys) : Inside (xs ++ ys) := by
  induction ys using List.reverseRecOn with
  | nil => rwa [List.append_nil]
  | append_singleton ys e ih =>
    obtain ⟨hy, hall⟩ := inside_snoc.mp hy
    have hdepth := hx.depth_nonneg
    rw [← List.append_assoc]
    refine inside_snoc.mpr ⟨ih hy, ?_⟩
    rw [depth_append]
    omega

theorem encloses_nil : Encloses 0 ([] : List (ScopeEvent α)) := ⟨inside_nil, rfl⟩

theorem encloses_snoc : Encloses n (evs ++ [e]) ↔ ∃ m : Nat, Encloses m evs ∧ (m : Int) + e.shift = n := by
  constructor
  · rintro ⟨hinside, hdepth⟩
    obtain ⟨hinside, -⟩ := inside_snoc.mp hinside
    obtain ⟨m, hm⟩ := Int.eq_ofNat_of_zero_le hinside.depth_nonneg
    rw [depth_append, depth_singleton, hm] at hdepth
    exact ⟨m, ⟨hinside, hm⟩, hdepth⟩
  · rintro ⟨m, ⟨hinside, hm⟩, hn⟩
    refine ⟨inside_snoc.mpr ⟨hinside, ?_⟩, ?_⟩
    · rw [hm]
      omega
    · rw [depth_append, depth_singleton, hm, hn]

theorem Encloses.append {m : Nat} (hx : Encloses m xs) (hy : Encloses n ys) :
    Encloses (m + n) (xs ++ ys) := by
  refine ⟨hx.inside.append hy.inside, ?_⟩
  rw [depth_append, hx.depth_eq, hy.depth_eq]
  exact (Int.natCast_add m n).symm

/-- A scope with balanced contents is balanced. -/
theorem Encloses.scope (h : Encloses 0 evs) : Encloses 0 (.enter :: evs ++ [.leave]) := by
  have henter : Encloses 1 ([.enter] : List (ScopeEvent α)) :=
    encloses_snoc.mpr ⟨0, encloses_nil, rfl⟩
  exact encloses_snoc.mpr ⟨1, henter.append h, rfl⟩

/-- The events of a declaration are balanced. -/
theorem encloses_declare (a : α) : Encloses 0 [ScopeEvent.declare a] :=
  encloses_snoc.mpr ⟨0, encloses_nil, rfl⟩

theorem encloses_declares : ∀ as : List α, Encloses 0 (as.map ScopeEvent.declare)
  | [] => encloses_nil
  | a :: as => (encloses_declare a).append (encloses_declares as)

@[simp] theorem declarations_append (xs ys : List (ScopeEvent α)) :
    declarations (xs ++ ys) = declarations xs + declarations ys := List.countP_append

/-- What is visible behind one event more. -/
theorem declaredAt_snoc : DeclaredAt (evs ++ [e]) a k n ↔
    (e = .declare a ∧ k = declarations evs ∧ n = 0) ∨
      ∃ m : Nat, DeclaredAt evs a k m ∧ (m : Int) + e.shift = n := by
  constructor
  · rintro ⟨before, after, heq, hk, hn⟩
    rcases List.eq_nil_or_concat after with rfl | ⟨after, e', rfl⟩
    · obtain ⟨rfl, he⟩ := List.append_inj' heq rfl
      refine .inl ⟨List.singleton_inj.mp he, hk.symm, ?_⟩
      have hdepth := hn.depth_eq
      simp at hdepth
      omega
    · rw [List.concat_eq_append, ← List.cons_append, ← List.append_assoc] at heq
      obtain ⟨rfl, he⟩ := List.append_inj' heq rfl
      obtain rfl := List.singleton_inj.mp he
      rw [List.concat_eq_append] at hn
      obtain ⟨m, hm, hshift⟩ := encloses_snoc.mp hn
      exact .inr ⟨m, ⟨before, after, rfl, hk, hm⟩, hshift⟩
  · rintro (⟨rfl, rfl, rfl⟩ | ⟨m, ⟨before, after, rfl, hk, hm⟩, hshift⟩)
    · exact ⟨evs, [], rfl, rfl, encloses_nil⟩
    · refine ⟨before, after ++ [e], ?_, hk, encloses_snoc.mpr ⟨m, hm, hshift⟩⟩
      rw [List.append_assoc, List.cons_append]

theorem not_declaredAt_nil : ¬ DeclaredAt ([] : List (ScopeEvent α)) a k n := by
  rintro ⟨before, after, heq, -⟩
  simp at heq

/-- A name stands for one of the declarations. -/
theorem Resolves.lt_declarations (h : Resolves evs a k) : k < declarations evs := by
  obtain ⟨n, ⟨before, after, rfl, rfl, -⟩, -⟩ := h
  rw [declarations_append]
  exact Nat.lt_add_of_pos_right (List.countP_pos_iff.mpr ⟨_, List.mem_cons_self, rfl⟩)

/-- Right behind its declaration, a name stands for it. -/
theorem resolves_declare : Resolves (evs ++ [.declare a]) a (declarations evs) :=
  ⟨0, declaredAt_snoc.mpr (.inl ⟨rfl, rfl, rfl⟩), fun _ hm => absurd hm (Nat.not_lt_zero _)⟩

theorem redeclares_nil {before : List (ScopeEvent α)} : ¬ Redeclares before [] := by
  rintro ⟨mid, a, after, heq, -⟩
  simp at heq

/-- A repeated name is in the first part or in the second. -/
theorem redeclares_append {before : List (ScopeEvent α)} :
    Redeclares before (xs ++ ys) ↔ Redeclares before xs ∨ Redeclares (before ++ xs) ys := by
  constructor
  · rintro ⟨mid, a, after, heq, k, hk⟩
    rcases List.append_eq_append_iff.mp heq with ⟨rest, rfl, hrest⟩ | ⟨rest, hxs, hrest⟩
    · exact .inr ⟨rest, a, after, hrest, k, by rwa [List.append_assoc]⟩
    · cases rest with
      | nil =>
        refine .inr ⟨[], a, after, by simpa using hrest.symm, k, ?_⟩
        rw [List.append_nil] at hxs ⊢
        rwa [hxs]
      | cons e rest =>
        obtain ⟨rfl, -⟩ := List.cons_eq_cons.mp hrest
        exact .inl ⟨mid, a, rest, hxs, k, hk⟩
  · rintro (⟨mid, a, after, rfl, k, hk⟩ | ⟨mid, a, after, rfl, k, hk⟩)
    · exact ⟨mid, a, after ++ ys, by simp, k, hk⟩
    · exact ⟨xs ++ mid, a, after, by simp, k, by rwa [← List.append_assoc]⟩

theorem redeclares_singleton {before : List (ScopeEvent α)} :
    Redeclares before [e] ↔ ∃ a k, e = .declare a ∧ DeclaredAt before a k 0 := by
  constructor
  · rintro ⟨mid, a, after, heq, k, hk⟩
    cases mid with
    | nil => exact ⟨a, k, (List.cons_eq_cons.mp heq).1, by rwa [List.append_nil] at hk⟩
    | cons e' mid => simp at heq
  · rintro ⟨a, k, rfl, hk⟩
    exact ⟨[], a, [], rfl, k, by rwa [List.append_nil]⟩

/-- What repeats in a scope repeats behind its beginning. -/
theorem redeclares_scope {before : List (ScopeEvent α)} :
    Redeclares before (.enter :: evs ++ [.leave]) ↔ Redeclares (before ++ [.enter]) evs := by
  have hcons : ScopeEvent.enter :: evs ++ [.leave] = [.enter] ++ evs ++ [.leave] := rfl
  rw [hcons, redeclares_append, redeclares_append]
  constructor
  · rintro ((h | h) | h)
    · obtain ⟨a, k, he, -⟩ := redeclares_singleton.mp h
      exact (nomatch he)
    · exact h
    · obtain ⟨a, k, he, -⟩ := redeclares_singleton.mp h
      exact (nomatch he)
  · exact fun h => .inl (.inr h)

/-- Where no scope declares a name again, it stands for one declaration. -/
theorem DeclaredAt.unique {k' : Nat} (hfresh : ¬ Redeclares [] evs) (hk : DeclaredAt evs a k n)
    (hk' : DeclaredAt evs a k' n) : k = k' := by
  induction evs using List.reverseRecOn generalizing n with
  | nil => exact absurd hk not_declaredAt_nil
  | append_singleton evs e ih =>
    rw [redeclares_append, not_or] at hfresh
    obtain ⟨hfresh, hlast⟩ := hfresh
    -- a new declaration beside one of the same scope would be a repetition
    have hnew : ∀ {j m : Nat}, e = .declare a → n = 0 → DeclaredAt evs a j m → (m : Int) + e.shift ≠ n := by
      rintro j m rfl rfl hj hshift
      obtain rfl : m = 0 := by
        simp only [ScopeEvent.shift] at hshift
        omega
      exact hlast (redeclares_singleton.mpr ⟨a, j, rfl, hj⟩)
    rcases declaredAt_snoc.mp hk with ⟨he, rfl, hn⟩ | ⟨m, hm, hshift⟩
    · rcases declaredAt_snoc.mp hk' with ⟨-, rfl, -⟩ | ⟨m', hm', hshift'⟩
      · rfl
      · exact absurd hshift' (hnew he hn hm')
    · rcases declaredAt_snoc.mp hk' with ⟨he, -, hn⟩ | ⟨m', hm', hshift'⟩
      · exact absurd hshift (hnew he hn hm)
      · obtain rfl : m = m' := by omega
        exact ih hfresh hm hm'

theorem Resolves.unique {k' : Nat} (hfresh : ¬ Redeclares [] evs) (hk : Resolves evs a k)
    (hk' : Resolves evs a k') : k = k' := by
  obtain ⟨n, hn, hinner⟩ := hk
  obtain ⟨n', hn', hinner'⟩ := hk'
  rcases Nat.lt_trichotomy n n' with hlt | rfl | hlt
  · exact absurd hn (hinner' n hlt k)
  · exact hn.unique hfresh hn'
  · exact absurd hn' (hinner n' hlt k')

theorem not_redeclares_declares {as : List α} (h : as.Nodup) :
    ¬ Redeclares [] (as.map ScopeEvent.declare) := by
  rintro ⟨mid, a, after, heq, k, before, inner, hmid, -⟩
  have hnodup : (as.map ScopeEvent.declare).Nodup := 
    List.Pairwise.map ScopeEvent.declare (fun _ _ hne heq => hne (ScopeEvent.declare.inj heq)) h
  rw [List.nil_append] at hmid
  rw [heq, hmid] at hnodup
  simp [List.nodup_append] at hnodup

/-! ## The stack of tables -/

/-- The tables of the open scopes, the innermost first, and the number of the next declaration. -/
structure Scopes (α : Type*) where
  count : Nat
  stack : List (List (α × Nat))

namespace Scopes

/-- The tables behind an event. -/
def step (s : Scopes α) : ScopeEvent α → Scopes α
  | .enter => { s with stack := [] :: s.stack }
  | .leave => { s with stack := s.stack.tail }
  | .declare a =>
    { count := s.count + 1
      stack := match s.stack with
        | [] => []
        | top :: rest => ((a, s.count) :: top) :: rest }

/-- The tables behind some events. -/
def run (s : Scopes α) (evs : List (ScopeEvent α)) : Scopes α := evs.foldl step s

/-- Nothing is declared yet. -/
def start : Scopes α := ⟨0, [[]]⟩

@[simp] theorem run_append (s : Scopes α) (xs ys : List (ScopeEvent α)) :
    s.run (xs ++ ys) = (s.run xs).run ys := List.foldl_append

theorem run_snoc (s : Scopes α) (evs : List (ScopeEvent α)) (e : ScopeEvent α) :
    s.run (evs ++ [e]) = (s.run evs).step e := List.foldl_concat ..

theorem run_count (s : Scopes α) (evs : List (ScopeEvent α)) :
    (s.run evs).count = s.count + declarations evs := by
  induction evs using List.reverseRecOn with
  | nil => rfl
  | append_singleton evs e ih =>
    rw [run_snoc, declarations_append, ← Nat.add_assoc, ← ih]
    cases e <;> rfl

/-- Behind events that never leave it, the table of the scope they begin in may have grown; those
    further out are as they were. -/
theorem run_stack (h : Encloses n evs) (c : Nat) (top : List (α × Nat)) (rest : List (List (α × Nat))) :
    ∃ tops, tops.length = n + 1 ∧ ((⟨c, top :: rest⟩ : Scopes α).run evs).stack = tops ++ rest := by
  induction evs using List.reverseRecOn generalizing n with
  | nil =>
    have hn := h.depth_eq
    obtain rfl : n = 0 := by simpa using hn.symm
    exact ⟨[top], rfl, rfl⟩
  | append_singleton evs e ih =>
    obtain ⟨m, hm, hshift⟩ := encloses_snoc.mp h
    obtain ⟨tops, hlen, hstack⟩ := ih hm
    rw [run_snoc]
    cases e with
    | enter =>
      have hn : n = m + 1 := by
        simp only [ScopeEvent.shift] at hshift
        omega
      refine ⟨[] :: tops, by rw [List.length_cons, hlen, hn], ?_⟩
      rw [step, hstack]
      rfl
    | leave =>
      have hm' : m = n + 1 := by
        simp only [ScopeEvent.shift] at hshift
        omega
      cases tops with
      | nil => simp at hlen
      | cons t tops =>
        refine ⟨tops, by simpa [hm'] using hlen, ?_⟩
        rw [step, hstack]
        rfl
    | declare a =>
      have hn : n = m := by
        simp only [ScopeEvent.shift] at hshift
        omega
      cases tops with
      | nil => simp at hlen
      | cons t tops =>
        refine ⟨((a, ((⟨c, top :: rest⟩ : Scopes α).run evs).count) :: t) :: tops, by rw [hn]; exact hlen, ?_⟩
        rw [step, hstack]
        rfl

/-- **A scope leaves nothing behind**: the tables behind it are those before it. -/
theorem run_scope (h : Encloses 0 evs) (s : Scopes α) :
    (s.run (.enter :: evs ++ [.leave])).stack = s.stack := by
  obtain ⟨tops, hlen, hstack⟩ := run_stack h s.count [] s.stack
  obtain ⟨t, rfl⟩ := List.length_eq_one_iff.mp hlen
  rw [run_snoc, step]
  show ((⟨s.count, [] :: s.stack⟩ : Scopes α).run evs).stack.tail = s.stack
  rw [hstack]
  rfl

theorem run_stack_ne_nil (h : Inside evs) : (start.run evs).stack ≠ [] := by
  obtain ⟨n, hn⟩ := Int.eq_ofNat_of_zero_le h.depth_nonneg
  obtain ⟨tops, hlen, hstack⟩ := run_stack ⟨h, hn⟩ 0 [] []
  show ((⟨0, [[]]⟩ : Scopes α).run evs).stack ≠ []
  rw [hstack, List.append_nil]
  exact List.ne_nil_of_length_eq_add_one hlen

/-! ## What is found in the tables -/

variable [DecidableEq α]

/-- What the `n`-th table has for a name. -/
def level (s : Scopes α) (n : Nat) (a : α) : Option Nat := s.stack[n]?.bind (·.lookup a)

theorem level_enter (s : Scopes α) (n : Nat) (a : α) :
    (s.step .enter).level n a = if n = 0 then none else s.level (n - 1) a := by
  cases n <;> rfl

theorem level_leave (s : Scopes α) (n : Nat) (a : α) : (s.step .leave).level n a = s.level (n + 1) a := by
  show s.stack.tail[n]?.bind _ = _
  rw [List.getElem?_tail]
  rfl

theorem level_declare {s : Scopes α} (hs : s.stack ≠ []) (n : Nat) (a b : α) :
    (s.step (.declare b)).level n a =
      if n = 0 ∧ a = b then some s.count else s.level n a := by
  obtain ⟨count, stack⟩ := s
  cases stack with
  | nil => exact absurd rfl hs
  | cons top rest =>
    cases n with
    | zero =>
      show ((b, count) :: top).lookup a = _
      rw [List.lookup_cons]
      by_cases hab : a = b
      · rw [if_pos ⟨rfl, hab⟩, hab, beq_self_eq_true]
      · rw [if_neg fun h => hab h.2, beq_false_of_ne hab]
        rfl
    | succ n =>
      rw [if_neg fun h => (nomatch h.1)]
      rfl

/-- **The tables say what the events say**, table by table. -/
theorem level_declaredAt (h : Inside evs) (a : α) (n : Nat) :
    (∀ k, (start.run evs).level n a = some k → DeclaredAt evs a k n) ∧
      ∀ k, DeclaredAt evs a k n → ((start.run evs).level n a).isSome := by
  induction evs using List.reverseRecOn generalizing n with
  | nil =>
    refine ⟨fun k hk => ?_, fun k hk => absurd hk not_declaredAt_nil⟩
    cases n <;> exact (nomatch hk)
  | append_singleton evs e ih =>
    obtain ⟨hinside, hdepth⟩ := inside_snoc.mp h
    have ih := ih hinside
    rw [run_snoc]
    cases e with
    | enter =>
      rw [level_enter]
      cases n with
      | zero =>
        refine ⟨fun k hk => (nomatch hk), fun k hk => ?_⟩
        rcases declaredAt_snoc.mp hk with ⟨he, -⟩ | ⟨m, -, hm⟩
        · exact (nomatch he)
        · simp only [ScopeEvent.shift] at hm
          omega
      | succ n =>
        obtain ⟨hfound, hdeclared⟩ := ih n
        refine ⟨fun k hk => declaredAt_snoc.mpr (.inr ⟨n, hfound k hk, rfl⟩), fun k hk => ?_⟩
        rcases declaredAt_snoc.mp hk with ⟨he, -⟩ | ⟨m, hm, hshift⟩
        · exact (nomatch he)
        · obtain rfl : m = n := by
            simp only [ScopeEvent.shift] at hshift
            omega
          exact hdeclared k hm
    | leave =>
      rw [level_leave]
      obtain ⟨hfound, hdeclared⟩ := ih (n + 1)
      refine ⟨fun k hk => declaredAt_snoc.mpr (.inr ⟨n + 1, hfound k hk, ?_⟩), fun k hk => ?_⟩
      · simp only [ScopeEvent.shift]
        omega
      · rcases declaredAt_snoc.mp hk with ⟨he, -⟩ | ⟨m, hm, hshift⟩
        · exact (nomatch he)
        · obtain rfl : m = n + 1 := by
            simp only [ScopeEvent.shift] at hshift
            omega
          exact hdeclared k hm
    | declare b =>
      rw [level_declare (run_stack_ne_nil hinside)]
      obtain ⟨hfound, hdeclared⟩ := ih n
      refine ⟨fun k hk => declaredAt_snoc.mpr ?_, fun k hk => ?_⟩
      · split at hk
        · next hnew =>
          refine .inl ⟨by rw [hnew.2], ?_, hnew.1⟩
          have hcount := Option.some.inj hk
          rw [← hcount, run_count]
          exact Nat.zero_add _
        · exact .inr ⟨n, hfound k hk, Int.add_zero _⟩
      · split
        · rfl
        · next hold =>
          rcases declaredAt_snoc.mp hk with ⟨he, -, hn⟩ | ⟨m, hm, hshift⟩
          · exact absurd ⟨hn, (ScopeEvent.declare.inj he).symm⟩ hold
          · obtain rfl : m = n := by
              simp only [ScopeEvent.shift] at hshift
              omega
            exact hdeclared k hm

/-- A name declared in the innermost scope is in its table. -/
theorem level_zero_isSome_iff (h : Inside evs) (a : α) :
    ((start.run evs).level 0 a).isSome ↔ ∃ k, DeclaredAt evs a k 0 := by
  obtain ⟨hfound, hdeclared⟩ := level_declaredAt h a 0
  constructor
  · intro hsome
    obtain ⟨k, hk⟩ := Option.isSome_iff_exists.mp hsome
    exact ⟨k, hfound k hk⟩
  · rintro ⟨k, hk⟩
    exact hdeclared k hk

/-- The first table that has a name: its own scope. -/
def find (s : Scopes α) (a : α) : Option Nat := s.stack.findSome? (·.lookup a)

/-- **What is found first is the innermost declaration.** -/
theorem resolves_of_find (h : Inside evs) (hk : (start.run evs).find a = some k) : Resolves evs a k := by
  obtain ⟨inner, table, outer, hstack, hlookup, hinner⟩ := List.findSome?_eq_some_iff.mp hk
  refine ⟨inner.length, (level_declaredAt h a _).1 k ?_, fun m hm k' hk' => ?_⟩
  · rw [level, hstack, List.getElem?_append_right (Nat.le_refl _), Nat.sub_self]
    exact hlookup
  · have hsome := (level_declaredAt h a m).2 k' hk'
    rw [level, hstack, List.getElem?_append_left hm, List.getElem?_eq_getElem hm] at hsome
    have hnone : inner[m].lookup a = none := hinner _ (List.getElem_mem hm)
    simp [hnone] at hsome

/-- What is not found is not declared. -/
theorem undeclared_of_find (h : Inside evs) (hnone : (start.run evs).find a = none) :
    Undeclared evs a := by
  intro k n hk
  have hsome := (level_declaredAt h a n).2 k hk
  cases htable : (start.run evs).stack[n]? with
  | none => simp [level, htable] at hsome
  | some table =>
    have hlookup := List.findSome?_eq_none_iff.mp hnone table (List.mem_of_getElem? htable)
    simp [level, htable, hlookup] at hsome

end Scopes

end KeyboardFirmware.Lib
