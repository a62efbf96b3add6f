/-
  `sort.c`: both sorts, on an array outside of which nothing may be touched.

  The array is the list of its bytes, and an access outside it has no value, so that a run which has a
  result has touched no other byte.  A loop has as many rounds as there are bytes; one that went on would
  have no result either.  The heap sort numbers the bytes from 1, and when it takes the largest byte
  off the heap, it lets the hole sink to the bottom and then raises the displaced byte from there.
-/
import KeyboardFirmware.Lib.BinaryHeap
import KeyboardFirmware.Macro.Sort

namespace KeyboardFirmware.Sort

open Lib

/-- `base[i]`, with the bytes numbered from 1. -/
def load (a : List Byte) (i : Nat) : Option Byte := if i = 0 then none else a[i - 1]?

/-- `base[i] = v`. -/
def store (a : List Byte) (i : Nat) (v : Byte) : Option (List Byte) :=
  if i = 0 ∨ a.length < i then none else some (a.set (i - 1) v)

/-! ## `heapsort_uint8` -/

/-- The choice between the two children. -/
def largerChild (nmemb child : Nat) (a : List Byte) : Option Nat := do
  if child < nmemb then
    let left ← load a child
    let right ← load a (child + 1)
    return if left < right then child + 1 else child
  else return child

/-- The loop that lets the byte at `par` sink, a `uint16_t` counting the children. -/
def sink (nmemb : Nat) : Nat → Nat → List Byte → Option (List Byte)
  | 0, _, _ => none
  | fuel + 1, par, a =>
    if par * 2 % 65536 ≤ nmemb then do
      let child ← largerChild nmemb (par * 2 % 65536) a
      let c ← load a child
      let p ← load a par
      if c ≤ p then return a
      let a ← store a par c
      let a ← store a child p
      sink nmemb fuel child a
    else return a

/-- The first loop: every list of a parent and its children is made a heap, from the last one on. -/
def buildHeap (nmemb : Nat) : Nat → List Byte → Option (List Byte)
  | 0, a => return a
  | initval + 1, a => do
    let a ← sink nmemb nmemb (initval + 1) a
    buildHeap nmemb initval a

/-- The loop that moves the larger child up, and with it the hole down: where the hole ends. -/
def sinkHole (nmemb : Nat) : Nat → Nat → List Byte → Option (Nat × List Byte)
  | 0, _, _ => none
  | fuel + 1, par, a =>
    if par * 2 % 65536 ≤ nmemb then do
      let child ← largerChild nmemb (par * 2 % 65536) a
      let c ← load a child
      let a ← store a par c
      sinkHole nmemb fuel child a
    else return (par, a)

/-- The loop that finds the place of the displaced byte `k`, from the bottom on. -/
def raise (k : Byte) : Nat → Nat → List Byte → Option (List Byte)
  | 0, _, _ => none
  | fuel + 1, child, a =>
    if child = 1 then store a child k
    else do
      let p ← load a (child / 2)
      if k < p then store a child k
      else
        let a ← store a child p
        raise k fuel (child / 2) a

/-- The second loop: the largest byte of the heap goes behind it. -/
def extract : Nat → List Byte → Option (List Byte)
  | 0, a => return a
  | 1, a => return a
  | nmemb + 2, a => do
    let k ← load a (nmemb + 2)
    let top ← load a 1
    let a ← store a (nmemb + 2) top
    let (par, a) ← sinkHole (nmemb + 1) (nmemb + 1) 1 a
    let a ← raise k (nmemb + 1) par a
    extract (nmemb + 1) a

/-- `heapsort_uint8`: what it returns, and the array. -/
def heapsortUint8 (vbase : List Byte) : Option (Int × List Byte) :=
  if vbase.length ≤ 1 then return (0, vbase)
  else do
    let a ← buildHeap vbase.length (vbase.length / 2) vbase
    let a ← extract vbase.length a
    return (0, a)

/-! ## `insertionsort_uint8` -/

/-- The inner loop, with `j` as its counter. -/
def insertSlot (val : Byte) : Nat → List Byte → Option (List Byte)
  | 0, a => store a 1 val
  | j + 1, a => do
    let p ← load a (j + 1)
    if p > val then
      let a ← store a (j + 2) p
      insertSlot val j a
    else store a (j + 2) val

/-- `insertionsort_uint8`; byte `i` of the array is `base[i + 1]` here. -/
def insertionsortUint8 (base : List Byte) : Option (List Byte) :=
  (List.range' 1 (base.length - 1)).foldlM (fun a i => do
    let val ← load a (i + 1)
    insertSlot val i a) base

/-! ## The accesses -/

/-- The bytes of the array by their numbers. -/
def elem (a : List Byte) (i : Nat) : Byte := (0 :: a).getD i 0

variable {a a' a'' : List Byte} {i j n p c m : Nat} {k v : Byte}

theorem some_bind {α β : Type} (x : α) (f : α → Option β) : (some x >>= f) = f x := rfl

theorem elem_succ (h : i < a.length) : elem a (i + 1) = a[i] := by
  simp [elem, h]

theorem load_eq (hi : 1 ≤ i) (h : i ≤ a.length) : load a i = some (elem a i) := by
  obtain ⟨i, rfl⟩ := Nat.exists_eq_add_of_le' hi
  rw [load, if_neg (Nat.succ_ne_zero i), elem_succ h]
  exact List.getElem?_eq_getElem h

theorem store_eq (hi : 1 ≤ i) (h : i ≤ a.length) (v : Byte) : store a i v = some (a.set (i - 1) v) := by
  rw [store, if_neg (by omega)]

theorem elem_set (hi : 1 ≤ i) (h : i ≤ a.length) (v : Byte) :
    elem (a.set (i - 1) v) = Function.update (elem a) i v := by
  obtain ⟨i, rfl⟩ := Nat.exists_eq_add_of_le' hi
  funext j
  have hset : elem (a.set i v) j = ((0 :: a).set (i + 1) v).getD j 0 := rfl
  rw [Nat.add_sub_cancel, hset, List.getD_eq_getElem?_getD, List.getElem?_set, Function.update_apply]
  by_cases hj : j = i + 1
  · have hlen : i + 1 < (0 :: a).length := by
      rw [List.length_cons]
      omega
    rw [if_pos hj.symm, if_pos hj, if_pos hlen]
    rfl
  · rw [if_neg (Ne.symm hj), if_neg hj, elem, List.getD_eq_getElem?_getD]

/-- A byte moves into the hole, and the displaced byte would now go where it was. -/
theorem move_perm (hi : 1 ≤ i) (hin : i ≤ a.length) (hj : 1 ≤ j) (hjn : j ≤ a.length) (hne : i ≠ j)
    (k : Byte) : ((a.set (i - 1) (elem a j)).set (j - 1) k).Perm (a.set (i - 1) k) := by
  obtain ⟨i, rfl⟩ := Nat.exists_eq_add_of_le' hi
  obtain ⟨j, rfl⟩ := Nat.exists_eq_add_of_le' hj
  rw [Nat.add_sub_cancel, Nat.add_sub_cancel, elem_succ hjn]
  have hij : i ≠ j := fun h => hne (congrArg Nat.succ h)
  have hlen : (a.set i k).length = a.length := List.length_set
  have hswap := @List.set_set_perm _ (a.set i k) i j (by omega) (by omega)
  rwa [List.getElem_set_self, List.getElem_set_ne hij, List.set_set] at hswap

/-- The choice between the children finds the larger one. -/
theorem largerChild_spec (hp : 1 ≤ p) (hc : p * 2 ≤ n) (hn : n ≤ a.length) :
    ∃ c, largerChild n (p * 2) a = some c ∧ LargestChild n (elem a) p c := by
  rw [largerChild]
  by_cases hlt : p * 2 < n
  · rw [if_pos hlt, load_eq (by omega) (by omega), load_eq (by omega) (by omega)]
    show ∃ c, some (if elem a (p * 2) < elem a (p * 2 + 1) then p * 2 + 1 else p * 2) = some c ∧ _
    by_cases hless : elem a (p * 2) < elem a (p * 2 + 1)
    · rw [if_pos hless]
      refine ⟨p * 2 + 1, rfl, by omega, by omega, ?_⟩
      intro j hj _
      rcases (show j = p * 2 ∨ j = p * 2 + 1 by omega) with rfl | rfl
      · exact hless.le
      · exact le_rfl
    · rw [if_neg hless]
      refine ⟨p * 2, rfl, by omega, by omega, ?_⟩
      intro j hj _
      rcases (show j = p * 2 ∨ j = p * 2 + 1 by omega) with rfl | rfl
      · exact le_rfl
      · exact not_lt.mp hless
  · rw [if_neg hlt]
    refine ⟨p * 2, rfl, by omega, by omega, ?_⟩
    intro j hj hjn
    rw [show j = p * 2 by omega]

/-! ## Building the heap -/

/-- **Sinking** makes a heap of the parents from `lo` on. -/
theorem sink_spec {lo : Nat} (hlo : 1 ≤ lo) (hsmall : n ≤ 32767) :
    ∀ (fuel : Nat) {p : Nat} {a : List Byte}, n ≤ a.length → lo ≤ p → n < p + fuel → p ≤ n →
      SinksAt lo n p (elem a) →
      ∃ a', sink n fuel p a = some a' ∧ a'.Perm a ∧ HeapFrom lo n (elem a') := by
  intro fuel
  induction fuel with
  | zero =>
    intro p a _ _ hfuel hp
    omega
  | succ fuel ih =>
    intro p a hn hp hfuel hpn hsinks
    have hmod : p * 2 % 65536 = p * 2 := Nat.mod_eq_of_lt (by omega)
    rw [sink, hmod]
    by_cases hc : p * 2 ≤ n
    · obtain ⟨c, hchild, hlargest⟩ := largerChild_spec (by omega) hc hn
      have hparent := hlargest.parent
      have hle := hlargest.le
      rw [if_pos hc, hchild, some_bind, load_eq (by omega) (by omega), some_bind,
        load_eq (by omega) (by omega), some_bind]
      by_cases hdone : elem a c ≤ elem a p
      · rw [if_pos hdone]
        refine ⟨a, rfl, List.Perm.refl _, hsinks.done fun j hj hjn => ?_⟩
        exact (hlargest.largest j hj hjn).trans hdone
      · have hmoved : n ≤ ((a.set (p - 1) (elem a c)).set (c - 1) (elem a p)).length := by
          rw [List.length_set, List.length_set]
          exact hn
        have helem : elem ((a.set (p - 1) (elem a c)).set (c - 1) (elem a p)) =
            Function.update (Function.update (elem a) p (elem a c)) c (elem a p) := by
          rw [elem_set (by omega) (by rw [List.length_set]; omega), elem_set (by omega) (by omega)]
        have hperm : ((a.set (p - 1) (elem a c)).set (c - 1) (elem a p)).Perm a := by
          have hmove := move_perm (show 1 ≤ p by omega) (by omega) (show 1 ≤ c by omega)
            (show c ≤ a.length by omega) (by omega) (elem a p)
          have hself : a.set (p - 1) (elem a p) = a := by
            obtain ⟨p, rfl⟩ := Nat.exists_eq_add_of_le' (show 1 ≤ p by omega)
            rw [Nat.add_sub_cancel, elem_succ (by omega), List.set_getElem_self]
          rwa [hself] at hmove
        rw [if_neg hdone, store_eq (by omega) (by omega), some_bind,
          store_eq (by omega) (by rw [List.length_set]; omega), some_bind]
        have hnext := hsinks.swap hlo hp hlargest (not_le.mp hdone)
        rw [← helem] at hnext
        obtain ⟨a', hrun, hperm', hheap⟩ := ih hmoved (by omega) (by omega) hle hnext
        exact ⟨a', hrun, hperm'.trans hperm, hheap⟩
    · rw [if_neg hc]
      refine ⟨a, rfl, List.Perm.refl _, hsinks.done fun j hj hjn => ?_⟩
      omega

/-- **The first loop** makes a heap of the whole array. -/
theorem buildHeap_spec (hsmall : n ≤ 32767) : ∀ (i : Nat) {a : List Byte}, n ≤ a.length → i ≤ n →
    HeapFrom (i + 1) n (elem a) →
    ∃ a', buildHeap n i a = some a' ∧ a'.Perm a ∧ HeapFrom 1 n (elem a') := by
  intro i
  induction i with
  | zero =>
    intro a _ _ hheap
    exact ⟨a, rfl, List.Perm.refl _, hheap⟩
  | succ i ih =>
    intro a hn hi hheap
    obtain ⟨a₁, hsink, hperm, hheap₁⟩ := sink_spec (show 1 ≤ i + 1 by omega) hsmall n hn le_rfl
      (by omega) hi (SinksAt.start hheap (by omega))
    obtain ⟨a₂, hbuild, hperm', hheap₂⟩ := ih (hperm.length_eq ▸ hn) (by omega) hheap₁
    refine ⟨a₂, ?_, hperm'.trans hperm, hheap₂⟩
    rw [buildHeap, hsink]
    exact hbuild

/-! ## Taking the largest byte off -/

/-- The first `m` bytes have changed, and none of them is larger than all that went into them. -/
structure Within (m : Nat) (k : Byte) (a a' : List Byte) : Prop where
  length : a'.length = a.length
  behind : ∀ i, m < i → elem a' i = elem a i
  bounded : ∀ top, k ≤ top → (∀ i, 1 ≤ i → i ≤ m → elem a i ≤ top) →
    ∀ i, 1 ≤ i → i ≤ m → elem a' i ≤ top

theorem Within.refl (m : Nat) (k : Byte) (a : List Byte) : Within m k a a :=
  ⟨rfl, fun _ _ => rfl, fun _ _ h => h⟩

theorem Within.trans (h : Within m k a a') (h' : Within m k a' a'') : Within m k a a'' where
  length := h'.length.trans h.length
  behind := fun i hi => (h'.behind i hi).trans (h.behind i hi)
  bounded := fun top hk hall => h'.bounded top hk (h.bounded top hk hall)

/-- One of the first `m` bytes gets a byte that is among them, or the displaced one. -/
theorem Within.set (hi : 1 ≤ i) (him : i ≤ m) (hm : m ≤ a.length)
    (hv : v = k ∨ ∃ j, 1 ≤ j ∧ j ≤ m ∧ v = elem a j) : Within m k a (a.set (i - 1) v) where
  length := List.length_set
  behind := by
    intro x hx
    rw [elem_set hi (by omega), Function.update_of_ne (by omega)]
  bounded := by
    intro top hk hall x hx hxm
    rw [elem_set hi (by omega), Function.update_apply]
    split
    · rcases hv with rfl | ⟨j, hj, hjm, rfl⟩
      · exact hk
      · exact hall j hj hjm
    · exact hall x hx hxm

/-- **The hole sinks** to a place without children. -/
theorem sinkHole_spec (k : Byte) (hsmall : m ≤ 32767) : ∀ (fuel : Nat) {p : Nat} {a : List Byte},
    m ≤ a.length → 1 ≤ p → p ≤ m → m < p + fuel → HeapFrom 1 m (elem a) →
    ∃ p' a', sinkHole m fuel p a = some (p', a') ∧ 1 ≤ p' ∧ p' ≤ m ∧ m < p' * 2 ∧
      HeapFrom 1 m (elem a') ∧ (a'.set (p' - 1) k).Perm (a.set (p - 1) k) ∧ Within m k a a' := by
  intro fuel
  induction fuel with
  | zero =>
    intro p a _ _ hpm hfuel
    omega
  | succ fuel ih =>
    intro p a hm hp hpm hfuel hheap
    have hmod : p * 2 % 65536 = p * 2 := Nat.mod_eq_of_lt (by omega)
    rw [sinkHole, hmod]
    by_cases hc : p * 2 ≤ m
    · obtain ⟨c, hchild, hlargest⟩ := largerChild_spec hp hc hm
      have hparent := hlargest.parent
      have hle := hlargest.le
      have hmoved : m ≤ (a.set (p - 1) (elem a c)).length := by
        rw [List.length_set]
        exact hm
      have hheap' : HeapFrom 1 m (elem (a.set (p - 1) (elem a c))) := by
        rw [elem_set hp (by omega)]
        exact hheap.fill_from_child hp hlargest
      have hset : Within m k a (a.set (p - 1) (elem a c)) :=
        Within.set hp hpm hm (.inr ⟨c, by omega, hle, rfl⟩)
      have hperm := move_perm hp (show p ≤ a.length by omega) (show 1 ≤ c by omega)
        (show c ≤ a.length by omega) (by omega) k
      rw [if_pos hc, hchild, some_bind, load_eq (by omega) (by omega), some_bind,
        store_eq hp (by omega), some_bind]
      obtain ⟨p', a', hrun, hp', hpm', hleaf, hheap'', hperm', hwithin⟩ :=
        ih hmoved (by omega) hle (by omega) hheap'
      exact ⟨p', a', hrun, hp', hpm', hleaf, hheap'', hperm'.trans hperm, hset.trans hwithin⟩
    · rw [if_neg hc]
      exact ⟨p, a, rfl, hp, hpm, not_le.mp hc, hheap, List.Perm.refl _, Within.refl m k a⟩

/-- **The displaced byte** goes up from the hole to its place. -/
theorem raise_spec (k : Byte) : ∀ (fuel : Nat) {c : Nat} {a : List Byte},
    m ≤ a.length → 1 ≤ c → c ≤ m → c ≤ fuel → HeapFrom 1 m (elem a) →
    (∀ j, j / 2 = c → j ≤ m → elem a j ≤ k) →
    ∃ a', raise k fuel c a = some a' ∧ HeapFrom 1 m (elem a') ∧ a'.Perm (a.set (c - 1) k) ∧
      Within m k a a' := by
  intro fuel
  induction fuel with
  | zero =>
    intro c a _ hc _ hfuel
    omega
  | succ fuel ih =>
    intro c a hm hc hcm hfuel hheap hbelow
    have hstop : c = 1 ∨ k ≤ elem a (c / 2) →
        ∃ a', store a c k = some a' ∧ HeapFrom 1 m (elem a') ∧ a'.Perm (a.set (c - 1) k) ∧
          Within m k a a' := by
      intro habove
      refine ⟨a.set (c - 1) k, store_eq hc (by omega) k, ?_, List.Perm.refl _, ?_⟩
      · rw [elem_set hc (by omega)]
        exact hheap.fill hbelow hc habove
      · exact Within.set hc hcm hm (.inl rfl)
    rw [raise]
    by_cases hroot : c = 1
    · rw [if_pos hroot]
      exact hstop (.inl hroot)
    · rw [if_neg hroot, load_eq (by omega) (by omega), some_bind]
      by_cases hless : k < elem a (c / 2)
      · rw [if_pos hless]
        exact hstop (.inr hless.le)
      · have hmoved : m ≤ (a.set (c - 1) (elem a (c / 2))).length := by
          rw [List.length_set]
          exact hm
        have helem : elem (a.set (c - 1) (elem a (c / 2))) =
            Function.update (elem a) c (elem a (c / 2)) := elem_set hc (by omega) _
        have hheap' : HeapFrom 1 m (elem (a.set (c - 1) (elem a (c / 2)))) := by
          rw [helem]
          exact hheap.fill_from_parent (by omega) hcm
        have hbelow' : ∀ j, j / 2 = c / 2 → j ≤ m → elem (a.set (c - 1) (elem a (c / 2))) j ≤ k := by
          intro j hj hjm
          rw [helem, Function.update_apply]
          split
          · exact not_lt.mp hless
          · have hup := hheap j (by omega) hjm
            rw [hj] at hup
            exact hup.trans (not_lt.mp hless)
        have hset : Within m k a (a.set (c - 1) (elem a (c / 2))) :=
          Within.set hc hcm hm (.inr ⟨c / 2, by omega, by omega, rfl⟩)
        have hperm := move_perm hc (show c ≤ a.length by omega) (show 1 ≤ c / 2 by omega)
          (show c / 2 ≤ a.length by omega) (by omega) k
        rw [if_neg hless, store_eq hc (by omega), some_bind]
        obtain ⟨a', hrun, hheap'', hperm', hwithin⟩ :=
          ih hmoved (by omega) (by omega) (by omega) hheap' hbelow'
        exact ⟨a', hrun, hheap'', hperm'.trans hperm, hset.trans hwithin⟩

/-- The bytes behind the first `n` are ascending, and none of the first `n` is above them. -/
structure SortedBehind (n : Nat) (a : List Byte) : Prop where
  ascending : ∀ i j, n < i → i ≤ j → j ≤ a.length → elem a i ≤ elem a j
  above : ∀ i j, 1 ≤ i → i ≤ n → n < j → j ≤ a.length → elem a i ≤ elem a j

/-- One round of the second loop. -/
theorem extract_round (hn : m + 1 ≤ a.length) (hm : 1 ≤ m) (hsmall : m ≤ 32767)
    (hheap : HeapFrom 1 (m + 1) (elem a)) (hsorted : SortedBehind (m + 1) a) :
    ∃ a₁ a₂ p, store a (m + 1) (elem a 1) = some a₁ ∧ sinkHole m m 1 a₁ = some (p, a₂) ∧
      ∃ a₃, raise (elem a (m + 1)) m p a₂ = some a₃ ∧ a₃.Perm a ∧ HeapFrom 1 m (elem a₃) ∧
        SortedBehind m a₃ := by
  have helem : elem (a.set m (elem a 1)) = Function.update (elem a) (m + 1) (elem a 1) :=
    elem_set (by omega) hn _
  have hlen : (a.set m (elem a 1)).length = a.length := List.length_set
  have hheap₁ : HeapFrom 1 m (elem (a.set m (elem a 1))) := by
    intro j hj hjm
    rw [helem, Function.update_of_ne (by omega), Function.update_of_ne (by omega)]
    exact hheap j hj (by omega)
  have hself : a.set m (elem a (m + 1)) = a := by
    rw [elem_succ (by omega), List.set_getElem_self]
  have hperm₁ := move_perm (show 1 ≤ m + 1 by omega) hn (show 1 ≤ 1 by omega)
    (show 1 ≤ a.length by omega) (by omega) (elem a (m + 1))
  rw [Nat.add_sub_cancel, hself] at hperm₁
  obtain ⟨p, a₂, hsink, hp, hpm, hleaf, hheap₂, hperm₂, hwithin₂⟩ := sinkHole_spec (elem a (m + 1))
    hsmall m (show m ≤ (a.set m (elem a 1)).length by omega) le_rfl hm (by omega) hheap₁
  obtain ⟨a₃, hraise, hheap₃, hperm₃, hwithin₃⟩ := raise_spec (elem a (m + 1)) m
    (show m ≤ a₂.length by rw [hwithin₂.length]; omega) hp hpm hpm hheap₂ (by
      intro j hj hjm
      omega)
  have hwithin := hwithin₂.trans hwithin₃
  refine ⟨_, a₂, p, store_eq (by omega) hn _, hsink, a₃, hraise, ?_, hheap₃, ?_⟩
  · exact hperm₃.trans (hperm₂.trans hperm₁)
  have hroot : ∀ i, 1 ≤ i → i ≤ m + 1 → elem a i ≤ elem a 1 := hheap.le_root
  have hbelow : ∀ i, 1 ≤ i → i ≤ m → elem a₃ i ≤ elem a 1 := by
    refine hwithin.bounded _ (hroot _ (by omega) le_rfl) fun i hi him => ?_
    rw [helem, Function.update_of_ne (by omega)]
    exact hroot i hi (by omega)
  have hlast : elem a₃ (m + 1) = elem a 1 := by
    rw [hwithin.behind _ (by omega), helem, Function.update_self]
  have hbehind : ∀ j, m + 1 < j → elem a₃ j = elem a j := by
    intro j hj
    rw [hwithin.behind j (by omega), helem, Function.update_of_ne (by omega)]
  have hlen₃ : a₃.length = a.length := hwithin.length.trans hlen
  have hup : ∀ j, m < j → j ≤ a.length → elem a 1 ≤ elem a₃ j := by
    intro j hj hjn
    rcases (show j = m + 1 ∨ m + 1 < j by omega) with rfl | hlt
    · rw [hlast]
    · rw [hbehind j hlt]
      exact hsorted.above 1 j le_rfl (by omega) hlt hjn
  constructor
  · intro i j hi hij hj
    rw [hlen₃] at hj
    rcases (show i = m + 1 ∨ m + 1 < i by omega) with rfl | hlt
    · rw [hlast]
      exact hup j (by omega) hj
    · rw [hbehind i hlt, hbehind j (by omega)]
      exact hsorted.ascending i j hlt hij hj
  · intro i j hi him hj hjn
    exact (hbelow i hi him).trans (hup j hj (hlen₃ ▸ hjn))

/-- **The second loop** leaves the array ascending. -/
theorem extract_spec : ∀ (n : Nat) {a : List Byte}, n ≤ a.length → n ≤ 32767 →
    HeapFrom 1 n (elem a) → SortedBehind n a →
    ∃ a', extract n a = some a' ∧ a'.Perm a ∧ SortedBehind 0 a' := by
  intro n
  induction n with
  | zero =>
    intro a _ _ _ hsorted
    exact ⟨a, rfl, List.Perm.refl _, hsorted⟩
  | succ m ih =>
    intro a hn hsmall hheap hsorted
    rcases Nat.eq_zero_or_pos m with rfl | hpos
    · refine ⟨a, rfl, List.Perm.refl _, ?_, fun i j hi hi0 => by omega⟩
      intro i j hi hij hj
      rcases (show i = 1 ∨ 1 < i by omega) with rfl | hlt
      · rcases (show j = 1 ∨ 1 < j by omega) with rfl | hlt
        · exact le_rfl
        · exact hsorted.above 1 j le_rfl le_rfl hlt hj
      · exact hsorted.ascending i j hlt hij hj
    · obtain ⟨m, rfl⟩ := Nat.exists_eq_add_of_le' hpos
      obtain ⟨a₁, a₂, p, hstore, hsink, a₃, hraise, hperm, hheap', hsorted'⟩ :=
        extract_round hn hpos (by omega) hheap hsorted
      obtain ⟨a', hrest, hperm', hall⟩ :=
        ih (by rw [hperm.length_eq]; omega) (by omega) hheap' hsorted'
      refine ⟨a', ?_, hperm'.trans hperm, hall⟩
      rw [extract, load_eq (by omega) hn, some_bind, load_eq le_rfl (by omega), some_bind, hstore,
        some_bind, hsink, some_bind]
      show (raise (elem a (m + 2)) (m + 1) p a₂ >>= extract (m + 1)) = some a'
      rw [hraise, some_bind]
      exact hrest

/-- An array whose numbered bytes ascend is sorted. -/
theorem SortedBehind.sortedLE (h : SortedBehind 0 a) : a.SortedLE := by
  rw [List.sortedLE_iff_pairwise, List.pairwise_iff_getElem]
  intro i j hi hj hij
  have hle := h.ascending (i + 1) (j + 1) (by omega) (by omega) (by omega)
  rwa [elem_succ hi, elem_succ hj] at hle

/-- **`heapsort_uint8` sorts** in place. -/
theorem heapsortUint8_spec (base : List Byte) (h : base.length ≤ 32767) :
    ∃ out, heapsortUint8 base = some (0, out) ∧ out.Perm base ∧ out.SortedLE := by
  rw [heapsortUint8]
  by_cases hshort : base.length ≤ 1
  · rw [if_pos hshort]
    refine ⟨base, rfl, List.Perm.refl _, ?_⟩
    rw [List.sortedLE_iff_pairwise, List.pairwise_iff_getElem]
    intro i j hi hj hij
    omega
  · obtain ⟨a, hbuild, hperm, hheap⟩ := buildHeap_spec h (base.length / 2) (a := base) le_rfl (by omega) (by
      intro j hj hjn
      omega)
    obtain ⟨out, hextract, hperm', hsorted⟩ := extract_spec base.length (a := a)
      (by rw [hperm.length_eq]) h hheap ⟨fun i j hi hij hj => by
        rw [hperm.length_eq] at hj
        omega, fun i j _ _ hj hjn => by
        rw [hperm.length_eq] at hjn
        omega⟩
    refine ⟨out, ?_, hperm'.trans hperm, hsorted.sortedLE⟩
    rw [if_neg hshort, hbuild, some_bind, hextract]
    rfl

/-! ## The insertion sort -/

theorem length_insertLoop (val : Byte) : ∀ (j : Nat) (a : List Byte), (insertLoop a val j).length = a.length
  | 0, _ => List.length_set
  | j + 1, a => by
    rw [insertLoop]
    split
    · rw [length_insertLoop val j, List.length_set]
    · exact List.length_set

/-- An insertion touches only bytes of the array. -/
theorem insertSlot_eq (val : Byte) : ∀ (j : Nat) {a : List Byte}, j < a.length →
    insertSlot val j a = some (insertLoop a val j)
  | 0, a, h => store_eq le_rfl h val
  | j + 1, a, h => by
    have hget : elem a (j + 1) = a.getD j 0 := rfl
    rw [insertSlot, load_eq (by omega) (by omega), some_bind, insertLoop, hget]
    by_cases hgt : a.getD j 0 > val
    · rw [if_pos hgt, if_pos hgt, store_eq (by omega) (by omega), some_bind]
      exact insertSlot_eq val j (by rw [List.length_set]; omega)
    · rw [if_neg hgt, if_neg hgt]
      exact store_eq (by omega) (by omega) val

/-- So does the whole sort. -/
theorem insertionsortUint8_eq (base : List Byte) :
    insertionsortUint8 base = some (KeyboardFirmware.insertionsortUint8 base base.length) := by
  have hrounds : ∀ (is : List Nat) (a : List Byte), (∀ i ∈ is, i < a.length) →
      is.foldlM (fun a i => do
        let val ← load a (i + 1)
        insertSlot val i a) a = some (is.foldl (fun b i => insertLoop b (b.getD i 0) i) a) := by
    intro is
    induction is with
    | nil => exact fun _ _ => rfl
    | cons i is ih =>
      intro a h
      obtain ⟨hi, his⟩ := List.forall_mem_cons.mp h
      have hget : elem a (i + 1) = a.getD i 0 := rfl
      rw [List.foldlM_cons, List.foldl_cons, load_eq (by omega) (by omega), some_bind,
        insertSlot_eq _ i hi, some_bind, hget]
      exact ih _ fun x hx => (length_insertLoop _ _ a).symm ▸ his x hx
  refine hrounds _ base fun i hi => ?_
  have hrange := List.mem_range'_1.mp hi
  omega

/-! ## Both -/

/-- **The sorts agree and sort**: both run within the array and leave the same ascending permutation of it. -/
theorem sorts_agree (base : List Byte) (h : base.length ≤ 32767) :
    ∃ out, heapsortUint8 base = some (0, out) ∧ insertionsortUint8 base = some out ∧
      out.Perm base ∧ out.SortedLE := by
  obtain ⟨out, hheap, hperm, hsorted⟩ := heapsortUint8_spec base h
  obtain ⟨out', hinsert, hperm', hsorted'⟩ := insertionsort_spec base []
  rw [List.append_nil, List.append_nil] at hinsert
  have hsame : out' = out := (hperm'.trans hperm.symm).eq_of_sortedLE hsorted' hsorted
  refine ⟨out, hheap, ?_, hperm, hsorted⟩
  rw [insertionsortUint8_eq, hinsert, hsame]

theorem sorts_agree_six : ∃ out, heapsortUint8 [3, 7, 255, 0, 7, 1] = some (0, out) ∧
    insertionsortUint8 [3, 7, 255, 0, 7, 1] = some out ∧ out = [0, 1, 3, 7, 7, 255] := by
  obtain ⟨out, hheap, hinsert, -⟩ := sorts_agree [3, 7, 255, 0, 7, 1] (by decide)
  have hrun : insertionsortUint8 [3, 7, 255, 0, 7, 1] = some [0, 1, 3, 7, 7, 255] := by decide
  exact ⟨out, hheap, hinsert, Option.some.inj (hinsert.symm.trans hrun)⟩

end KeyboardFirmware.Sort
