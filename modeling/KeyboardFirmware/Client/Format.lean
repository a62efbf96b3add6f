/-
  The bytes a list of triggers is sent as, whoever writes them.

  Both clients sort the triggers by their filled-up keys and go through the list with a running
  offset: an index entry is the key and a short, the offset of the macro's record or the number of the
  program with the top bit set; a record is a length and the events.  `indexBytes` and `storageBytes`
  are these two texts.  The models of the clients are shown to write them, and what is known about the
  texts is known about the clients.
-/
import KeyboardFirmware.Macro.StoreInv

namespace KeyboardFirmware.Client

open Lib

/-- A filled-up key and what it stands for. -/
abbrev Item := List LogicalKeycode × TriggerContents

/-- What the contents take in the storage: a macro has a record, a program has nothing. -/
def body : TriggerContents → List Byte
  | .program _ => []
  | .events events => record events

/-- The value of the index entry, for contents whose record would start at `offset`. -/
def value (offset : Nat) : TriggerContents → Fin 65536
  | .program number => number ||| 0x8000
  | .events _ => Fin.ofNat 65536 offset

/-- The index entries, the first record starting at `offset`. -/
def indexBytes : Nat → List Item → List Byte
  | _, [] => []
  | offset, item :: items =>
    item.1 ++ shortBytes (value offset item.2) ++ indexBytes (offset + (body item.2).length) items

/-- The records. -/
def storageBytes (items : List Item) : List Byte := items.flatMap fun item => body item.2

@[simp] theorem storageBytes_nil : storageBytes [] = [] := rfl

@[simp] theorem storageBytes_cons (item : Item) (items : List Item) :
    storageBytes (item :: items) = body item.2 ++ storageBytes items := List.flatMap_cons

@[simp] theorem storageBytes_append (xs ys : List Item) :
    storageBytes (xs ++ ys) = storageBytes xs ++ storageBytes ys := List.flatMap_append

theorem indexBytes_append (ys : List Item) : ∀ (offset : Nat) (xs : List Item),
    indexBytes offset (xs ++ ys) =
      indexBytes offset xs ++ indexBytes (offset + (storageBytes xs).length) ys := by
  intro offset xs
  induction xs generalizing offset with
  | nil => rfl
  | cons item xs ih =>
    rw [List.cons_append, indexBytes, indexBytes, ih, storageBytes_cons, List.length_append,
      ← Nat.add_assoc, List.append_assoc _ (indexBytes _ xs)]

/-- Entries are of one size. -/
theorem indexBytes_length {k : Nat} : ∀ (offset : Nat) (items : List Item),
    (∀ item ∈ items, item.1.length = k) → (indexBytes offset items).length = items.length * (k + 2) := by
  intro offset items h
  induction items generalizing offset with
  | nil => simp [indexBytes]
  | cons item items ih =>
    have hrest := ih (offset + (body item.2).length) fun i hi => h i (List.mem_cons_of_mem _ hi)
    rw [indexBytes, List.length_append, List.length_append, hrest, shortBytes_length,
      h item List.mem_cons_self, List.length_cons, Nat.succ_mul]
    omega

/-- In the order of the keys. -/
def Ascending (items : List Item) : Prop := items.Pairwise fun a b => a.1 ≤ b.1

/-! ## Shorts in byte strings -/

/-- The short at `offset` of a byte string, low byte first; `none` when it is not all inside. -/
def readShort (bs : List Byte) (offset : Nat) : Option (Fin 65536) := do
  let low ← bs[offset]?
  let high ← bs[offset + 1]?
  some ⟨low.val + 256 * high.val, twoBytes_lt low high⟩

theorem readShort_shortBytes (pre post : List Byte) (v : Fin 65536) :
    readShort (pre ++ shortBytes v ++ post) pre.length = some v := by
  have hlow : (pre ++ shortBytes v ++ post)[pre.length]? = some (Fin.ofNat 256 v.val) := by
    rw [List.append_assoc, List.getElem?_append_right (Nat.le_refl _), Nat.sub_self]
    rfl
  have hhigh : (pre ++ shortBytes v ++ post)[pre.length + 1]? = some (Fin.ofNat 256 (v.val / 256)) := by
    rw [List.append_assoc, List.getElem?_append_right (Nat.le_add_right _ 1), Nat.add_sub_cancel_left]
    rfl
  rw [readShort, hlow, hhigh]
  refine congrArg some (Fin.ext ?_)
  show v.val % 256 + 256 * (v.val / 256 % 256) = v.val
  omega

/-- A short is read when its two bytes are inside. -/
theorem readShort_isSome {bs : List Byte} {offset : Nat} :
    (readShort bs offset).isSome ↔ offset + 2 ≤ bs.length := by
  constructor
  · intro h
    obtain ⟨v, hv⟩ := Option.isSome_iff_exists.mp h
    obtain ⟨low, -, hv⟩ := Option.bind_eq_some_iff.mp hv
    obtain ⟨high, hhigh, -⟩ := Option.bind_eq_some_iff.mp hv
    obtain ⟨hlt, -⟩ := List.getElem?_eq_some_iff.mp hhigh
    exact hlt
  · intro h
    rw [readShort, List.getElem?_eq_getElem (show offset < bs.length by omega),
      List.getElem?_eq_getElem (show offset + 1 < bs.length by omega)]
    rfl

/-! ## The program bit -/

theorem and_program_bits (v : Fin 65536) : (v &&& 0x7fff).val = v.val % 0x8000 := by
  rw [Fin.and_val]
  exact Nat.and_two_pow_sub_one_eq_mod v.val 15

/-- A number with the top bit set: the bits below it stay. -/
theorem or_program_bit (n : Fin 65536) : (n ||| 0x8000).val = 0x8000 + n.val % 0x8000 := by
  have hsplit : n.val = n.val / 0x8000 * 0x8000 + n.val % 0x8000 :=
    (Nat.div_add_mod' n.val 0x8000).symm
  have hlow : n.val % 2 ^ 15 < 2 ^ 15 := Nat.mod_lt _ (by decide)
  have hor : (n ||| 0x8000).val = n.val ||| 0x8000 := by
    rw [Fin.or_val]
    exact Nat.mod_eq_of_lt (@Nat.or_lt_two_pow n.val 0x8000 16 n.isLt (by decide))
  rw [hor]
  rcases Nat.lt_or_ge n.val 0x8000 with hlt | hge
  · rw [Nat.mod_eq_of_lt hlt, Nat.or_comm]
    exact (@Nat.two_pow_add_eq_or_of_lt 15 n.val hlt 1).symm
  · have hone : n.val = 2 ^ 15 * 1 ||| n.val % 2 ^ 15 := by
      rw [← Nat.two_pow_add_eq_or_of_lt hlow 1]
      omega
    have htop : n.val ||| 2 ^ 15 * 1 = 2 ^ 15 * 1 ||| n.val % 2 ^ 15 := by
      conv_lhs => rw [hone, Nat.or_comm, ← Nat.or_assoc, Nat.or_self]
    exact htop.trans (Nat.two_pow_add_eq_or_of_lt hlow 1).symm

end KeyboardFirmware.Client
