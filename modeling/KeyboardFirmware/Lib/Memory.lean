/-
  Flat memory: cells, blocks of cells, and the copies and writes between them.

  A memory is a function from addresses.  `Holds mem a bs` says that the list `bs` lies at address
  `a`; a list of consecutive records is then just an append (`holds_append`), and every write
  comes with two facts, what it puts there and that everything away from it stays.
-/
import Mathlib.Data.List.Basic
import Mathlib.Tactic.Common

namespace KeyboardFirmware.Lib

variable {α : Type*}

/-- The block `bs` lies at address `a`. -/
def Holds (mem : Nat → α) (a : Nat) (bs : List α) : Prop :=
  ∀ i (h : i < bs.length), mem (a + i) = bs[i]

/-- The `n` cells from `a` on. -/
def readBytes (mem : Nat → α) (a n : Nat) : List α := (List.range n).map fun i => mem (a + i)

/-- Write the block `bs` to `a`. -/
def writeBytes (mem : Nat → α) (a : Nat) (bs : List α) : Nat → α := fun i =>
  if a ≤ i then (bs[i - a]?).getD (mem i) else mem i

/-- Copy `n` cells from `src` to `dst`; the ranges may overlap. -/
def memmove (mem : Nat → α) (dst src n : Nat) : Nat → α := fun i =>
  if dst ≤ i ∧ i < dst + n then mem (src + (i - dst)) else mem i

variable {mem mem' : Nat → α} {a : Nat} {bs cs : List α}

theorem holds_nil : Holds mem a [] := fun i h => absurd h (Nat.not_lt_zero i)

/-- Two blocks one after the other are one block. -/
theorem holds_append : Holds mem a (bs ++ cs) ↔ Holds mem a bs ∧ Holds mem (a + bs.length) cs := by
  constructor
  · intro h
    refine ⟨fun i hi => ?_, fun i hi => ?_⟩
    · rw [h i (by rw [List.length_append]; omega), List.getElem_append_left hi]
    · rw [Nat.add_assoc, h (bs.length + i) (by rw [List.length_append]; omega),
        List.getElem_append_right (by omega)]
      congr 1; omega
  · rintro ⟨hb, hc⟩ i hi
    rw [List.length_append] at hi
    rcases Nat.lt_or_ge i bs.length with hlt | hge
    · rw [List.getElem_append_left hlt, hb i hlt]
    · rw [List.getElem_append_right hge, ← hc (i - bs.length) (by omega)]
      congr 1; omega

/-- A block is its first cell and the rest behind it. -/
theorem holds_cons {b : α} : Holds mem a (b :: bs) ↔ mem a = b ∧ Holds mem (a + 1) bs := by
  constructor
  · intro h
    refine ⟨h 0 (Nat.succ_pos _), fun i hi => ?_⟩
    rw [Nat.add_assoc, Nat.add_comm 1 i]
    exact h (i + 1) (Nat.succ_lt_succ hi)
  · rintro ⟨hb, hbs⟩ i hi
    cases i with
    | zero => exact hb
    | succ i =>
      have hstep := hbs i (Nat.lt_of_succ_lt_succ hi)
      rwa [Nat.add_assoc, Nat.add_comm 1 i] at hstep

/-- A block stays when none of its cells change. -/
theorem Holds.congr (h : Holds mem a bs) (heq : ∀ i, a ≤ i → i < a + bs.length → mem' i = mem i) :
    Holds mem' a bs := fun i hi => by
  rw [heq (a + i) (by omega) (by omega), h i hi]

theorem Holds.readBytes_eq (h : Holds mem a bs) : readBytes mem a bs.length = bs := by
  refine List.ext_getElem (by simp [readBytes]) fun i h1 h2 => ?_
  simp only [readBytes, List.getElem_map, List.getElem_range]
  exact h i h2

@[simp] theorem readBytes_length (mem : Nat → α) (a n : Nat) : (readBytes mem a n).length = n := by
  rw [readBytes, List.length_map, List.length_range]

/-- What is read at `a` lies at `a`. -/
theorem holds_readBytes (mem : Nat → α) (a n : Nat) : Holds mem a (readBytes mem a n) := fun i hi => by
  simp only [readBytes, List.getElem_map, List.getElem_range]

theorem writeBytes_holds (mem : Nat → α) (a : Nat) (bs : List α) :
    Holds (writeBytes mem a bs) a bs := fun i hi => by
  rw [writeBytes, if_pos (by omega), Nat.add_sub_cancel_left, List.getElem?_eq_getElem hi]
  rfl

/-- **Frame of a write**: only the cells of the block change. -/
theorem writeBytes_of_outside (mem : Nat → α) (bs : List α) {i : Nat}
    (h : i < a ∨ a + bs.length ≤ i) : writeBytes mem a bs i = mem i := by
  rw [writeBytes]
  split
  · rw [List.getElem?_eq_none (by omega)]; rfl
  · rfl

theorem Holds.writeBytes_of_disjoint (h : Holds mem a bs) {b : Nat}
    (hd : a + bs.length ≤ b ∨ b + cs.length ≤ a) : Holds (writeBytes mem b cs) a bs :=
  h.congr fun i h1 h2 => writeBytes_of_outside mem cs (by omega)

theorem memmove_holds {dst src : Nat} (h : Holds mem src bs) :
    Holds (memmove mem dst src bs.length) dst bs := fun i hi => by
  rw [memmove, if_pos (by omega), Nat.add_sub_cancel_left, h i hi]

/-- **Frame of a copy**: only the destination changes. -/
theorem memmove_of_outside (mem : Nat → α) {dst src n i : Nat} (h : i < dst ∨ dst + n ≤ i) :
    memmove mem dst src n i = mem i := by
  rw [memmove, if_neg (by omega)]

theorem memmove_zero (mem : Nat → α) (dst src : Nat) : memmove mem dst src 0 = mem :=
  funext fun _ => memmove_of_outside mem (by omega)

/-- **Closing a hole**: with `xs`, `hole`, `ys` one after the other, copying `ys` down over the
    hole leaves `xs`, `ys`. -/
theorem Holds.close_hole {xs hole ys : List α} (h : Holds mem a (xs ++ hole ++ ys)) :
    Holds (memmove mem (a + xs.length) (a + (xs ++ hole).length) ys.length) a (xs ++ ys) := by
  obtain ⟨hxh, hys⟩ := holds_append.mp h
  obtain ⟨hxs, -⟩ := holds_append.mp hxh
  exact holds_append.mpr ⟨hxs.congr fun i _ h2 => memmove_of_outside mem (by omega),
    memmove_holds hys⟩

/-! ## Writing and copying in pieces -/

@[simp] theorem writeBytes_nil (mem : Nat → α) (a : Nat) : writeBytes mem a [] = mem :=
  funext fun i => writeBytes_of_outside mem [] (by simp only [List.length_nil]; omega)

/-- A block is written by writing its pieces one after the other. -/
theorem writeBytes_append (mem : Nat → α) (a : Nat) (bs cs : List α) :
    writeBytes mem a (bs ++ cs) = writeBytes (writeBytes mem a bs) (a + bs.length) cs := by
  funext i
  by_cases h1 : i < a
  · rw [writeBytes_of_outside _ _ (Or.inl h1), writeBytes_of_outside _ _ (Or.inl (by omega)),
      writeBytes_of_outside _ _ (Or.inl h1)]
  · by_cases h2 : i < a + bs.length
    · rw [writeBytes_of_outside _ cs (Or.inl h2), writeBytes, writeBytes, if_pos (by omega),
        if_pos (by omega), List.getElem?_append_left (by omega)]
    · rw [writeBytes, writeBytes, if_pos (by omega), if_pos (by omega),
        List.getElem?_append_right (by omega), writeBytes_of_outside mem bs (Or.inr (by omega)),
        show i - a - bs.length = i - (a + bs.length) by omega]

/-- A copy is the write of what was read. -/
theorem memmove_eq_writeBytes (mem : Nat → α) (dst src n : Nat) :
    memmove mem dst src n = writeBytes mem dst (readBytes mem src n) := by
  funext i
  by_cases hi : dst ≤ i ∧ i < dst + n
  · have hlt : i - dst < n := by omega
    rw [memmove, if_pos hi, writeBytes, if_pos hi.1, readBytes,
      List.getElem?_map, List.getElem?_range hlt]
    rfl
  · rw [memmove_of_outside mem (by omega), writeBytes_of_outside mem _ (by simp [readBytes]; omega)]

/-- Copying down, a first piece can go before the rest: what is still to be read lies behind it. -/
theorem memmove_piece (mem : Nat → α) {dst src n k : Nat} (hdown : dst ≤ src) (hk : k ≤ n) :
    memmove (writeBytes mem dst (readBytes mem src k)) (dst + k) (src + k) (n - k)
      = memmove mem dst src n := by
  rw [← memmove_eq_writeBytes]
  funext i
  by_cases h1 : dst + k ≤ i ∧ i < dst + n
  · rw [memmove, if_pos (by omega), memmove_of_outside mem (Or.inr (by omega)), memmove,
      if_pos (by omega), show src + k + (i - (dst + k)) = src + (i - dst) by omega]
  · rw [memmove_of_outside _ (by omega)]
    by_cases h2 : dst ≤ i ∧ i < dst + k
    · rw [memmove, if_pos h2, memmove, if_pos (by omega)]
    · rw [memmove_of_outside mem (by omega), memmove_of_outside mem (by omega)]

/-! ## Traces of writes -/

/-- A write to a memory: where it starts, and the values stored from there on. -/
structure Write (α : Type*) where
  dst : Nat
  data : List α
deriving DecidableEq

/-- The write ends at or below `size`. -/
def Write.Below (w : Write α) (size : Nat) : Prop := w.dst + w.data.length ≤ size

/-- The memory after the writes of a trace, the first one first. -/
def applyWrites (mem : Nat → α) (ws : List (Write α)) : Nat → α :=
  ws.foldl (fun mem w => writeBytes mem w.dst w.data) mem

/-- **Frame of a trace**: writes that end below `size` change nothing from there on. -/
theorem applyWrites_of_le {ws : List (Write α)} {size i : Nat} (h : ∀ w ∈ ws, w.Below size)
    (hi : size ≤ i) : applyWrites mem ws i = mem i := by
  induction ws generalizing mem with
  | nil => rfl
  | cons w ws ih =>
    have hw : w.dst + w.data.length ≤ size := h w List.mem_cons_self
    show applyWrites (writeBytes mem w.dst w.data) ws i = mem i
    rw [ih fun w' hw' => h w' (List.mem_cons_of_mem _ hw')]
    exact writeBytes_of_outside mem _ (Or.inr (by omega))

end KeyboardFirmware.Lib
