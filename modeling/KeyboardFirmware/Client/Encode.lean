/-
  `trigger.cc`: what the Qt client writes for a list of triggers.

  A `QByteArray` is a list of bytes and a cursor into one is a position; `overwrite` is the `memcpy`
  through it.  `encodeTriggers` allocates the index filled with `0xff` and the storage with what the
  triggers need, sorts, and lets each trigger write itself at the cursors.  What comes out is
  `indexBytes` and `storageBytes` of the sorted triggers, an end offset in front of the second
  (`encodeTriggers_ok`).
-/
import KeyboardFirmware.Client.Format
import KeyboardFirmware.Lib.Sorting

namespace KeyboardFirmware.Client

open Lib

/-! ## Triggers -/

/-- `Trigger::TriggerType`. -/
inductive TriggerType
  | macroTrigger
  | programTrigger
  deriving DecidableEq

/-- `Trigger`.  The macro and the program are both kept, whatever the type. -/
structure Trigger where
  keysPerTrigger : Nat
  triggerKeys : List LogicalKeycode
  type : TriggerType
  macroContents : List Byte
  programContents : Fin 65536
  deriving DecidableEq

/-- The constructor. -/
def Trigger.new (keysPerTrigger : Nat) : Trigger := ⟨keysPerTrigger, [], .macroTrigger, [], 0⟩

/-- `Trigger::toggleKeyInTrigger`: `qLowerBound` and `insert` are the ordered insertion. -/
def Trigger.toggleKeyInTrigger (t : Trigger) (lkey : LogicalKeycode) : Trigger :=
  if lkey ∈ t.triggerKeys then { t with triggerKeys := t.triggerKeys.filter (· ≠ lkey) }
  else if t.triggerKeys.length < t.keysPerTrigger then
    { t with triggerKeys := t.triggerKeys.orderedInsert (· ≤ ·) lkey }
  else t

/-- What the trigger stands for. -/
def Trigger.contents (t : Trigger) : TriggerContents :=
  match t.type with
  | .macroTrigger => .events t.macroContents
  | .programTrigger => .program t.programContents

/-- Keys and contents of a trigger. -/
def Trigger.meaning (t : Trigger) : Item := (t.triggerKeys, t.contents)

/-- A trigger of a device with `k` keys for each: its keys are in order, each once, real ones and not
    too many. -/
structure Trigger.Formed (k : Nat) (t : Trigger) : Prop where
  perTrigger : t.keysPerTrigger = k
  sorted : t.triggerKeys.Pairwise (· < ·)
  noKey_notMem : noKey ∉ t.triggerKeys
  length_le : t.triggerKeys.length ≤ k

/-- What the entry of a trigger needs: a key may stand twice. -/
structure Trigger.Fits (k : Nat) (t : Trigger) : Prop where
  perTrigger : t.keysPerTrigger = k
  sorted : t.triggerKeys.Pairwise (· ≤ ·)
  noKey_notMem : noKey ∉ t.triggerKeys
  length_le : t.triggerKeys.length ≤ k

theorem Trigger.Formed.fits {k : Nat} {t : Trigger} (h : t.Formed k) : t.Fits k :=
  ⟨h.perTrigger, h.sorted.imp le_of_lt, h.noKey_notMem, h.length_le⟩

instance (k : Nat) (t : Trigger) : Decidable (t.Formed k) :=
  decidable_of_iff (t.keysPerTrigger = k ∧ t.triggerKeys.Pairwise (· < ·) ∧ noKey ∉ t.triggerKeys ∧
      t.triggerKeys.length ≤ k)
    ⟨fun ⟨h₁, h₂, h₃, h₄⟩ => ⟨h₁, h₂, h₃, h₄⟩, fun h => ⟨h.1, h.2, h.3, h.4⟩⟩

/-- Inserting a key that is not there keeps strict order. -/
theorem pairwise_orderedInsert {lkey : LogicalKeycode} : ∀ {keys : List LogicalKeycode},
    keys.Pairwise (· < ·) → lkey ∉ keys → (keys.orderedInsert (· ≤ ·) lkey).Pairwise (· < ·) := by
  intro keys
  induction keys with
  | nil => exact fun _ _ => List.pairwise_singleton _ lkey
  | cons b keys ih =>
    intro hsorted hnot
    obtain ⟨hb, hkeys⟩ := List.pairwise_cons.mp hsorted
    have hne : lkey ≠ b := fun h => hnot (h ▸ List.mem_cons_self)
    rw [List.orderedInsert_cons]
    split
    next hle =>
      have hlt := lt_of_le_of_ne hle hne
      exact List.pairwise_cons.mpr ⟨List.forall_mem_cons.mpr ⟨hlt, fun c hc => hlt.trans (hb c hc)⟩,
        hsorted⟩
    next hgt =>
      refine List.pairwise_cons.mpr ⟨fun c hc => ?_, ih hkeys fun h => hnot (List.mem_cons_of_mem _ h)⟩
      rcases List.mem_orderedInsert _ |>.mp hc with rfl | hmem
      · exact not_le.mp hgt
      · exact hb c hmem

/-- The keys of a trigger are formed as the user picks them. -/
theorem Trigger.Formed.toggle {k : Nat} {t : Trigger} (h : t.Formed k) {lkey : LogicalKeycode}
    (hkey : lkey ≠ noKey) : (t.toggleKeyInTrigger lkey).Formed k := by
  rw [Trigger.toggleKeyInTrigger]
  split
  · exact ⟨h.perTrigger, h.sorted.filter _, fun hmem => h.noKey_notMem (List.mem_of_mem_filter hmem),
      (List.length_filter_le _ _).trans h.length_le⟩
  next hnot =>
    split
    next hroom =>
      refine ⟨h.perTrigger, pairwise_orderedInsert h.sorted hnot, fun hmem => ?_, ?_⟩
      · rcases List.mem_orderedInsert _ |>.mp hmem with heq | hmem
        · exact hkey heq.symm
        · exact h.noKey_notMem hmem
      · have := h.perTrigger
        simp only [List.orderedInsert_length]
        omega
    · exact h

/-! ## Encoding -/

/-- `EncodedTrigger`: the keys filled up, and the union of what they stand for with its tag. -/
structure EncodedTrigger where
  keys : List Byte
  keysPerTrigger : Nat
  data : TriggerContents

/-- The constructor of `EncodedTrigger`. -/
def EncodedTrigger.ofTrigger (t : Trigger) : EncodedTrigger where
  keys := t.triggerKeys ++ List.replicate (t.keysPerTrigger - t.triggerKeys.length) 0xff
  keysPerTrigger := t.keysPerTrigger
  data := t.contents

/-- `EncodedTrigger::storageRequired`. -/
def EncodedTrigger.storageRequired (t : EncodedTrigger) : Nat :=
  match t.data with
  | .program _ => 0
  | .events events => 2 + events.length

/-- `EncodedTrigger::operator<` does not put `b` before `a`. -/
def EncodedTrigger.NotAfter (a b : EncodedTrigger) : Prop := ¬ b.keys < a.keys

instance : DecidableRel EncodedTrigger.NotAfter := fun a b =>
  inferInstanceAs (Decidable (¬ b.keys < a.keys))

/-- Insertion sort will do as `qSort`. -/
def insertionSort : Sorting EncodedTrigger.NotAfter :=
  .insertion _ (fun a b => (le_total a.keys b.keys).imp not_lt.mpr not_lt.mpr)
    fun _ _ _ hab hbc => not_lt.mpr ((not_lt.mp hab).trans (not_lt.mp hbc))

/-- Write `data` over the bytes from `pos` on. -/
def overwrite (bs : List Byte) (pos : Nat) (data : List Byte) : List Byte :=
  bs.take pos ++ data ++ bs.drop (pos + data.length)

/-- The two arrays with the cursors `encode` moves. -/
structure Cursors where
  index : List Byte
  indexCursor : Nat
  storage : List Byte
  storageCursor : Nat

/-- `writeLittleEndian<uint16_t>` at the index cursor. -/
def Cursors.writeIndex (c : Cursors) (val : Fin 65536) : Cursors :=
  { c with index := overwrite c.index c.indexCursor (shortBytes val), indexCursor := c.indexCursor + 2 }

/-- `writeLittleEndian<uint16_t>` at the storage cursor. -/
def Cursors.writeStorage (c : Cursors) (val : Fin 65536) : Cursors :=
  { c with
    storage := overwrite c.storage c.storageCursor (shortBytes val)
    storageCursor := c.storageCursor + 2 }

/-- `EncodedTrigger::encode`. -/
def EncodedTrigger.encode (storageBase : Nat) (c : Cursors) (t : EncodedTrigger) : Cursors :=
  let c := { c with
    index := overwrite c.index c.indexCursor t.keys
    indexCursor := c.indexCursor + t.keysPerTrigger }
  if t.keys.getD 0 0 = noKey then { c with indexCursor := c.indexCursor + 2 }
  else
    match t.data with
    | .events events =>
      let c := c.writeIndex (Fin.ofNat 65536 (c.storageCursor - storageBase))
      let macroLen : Fin 65536 := Fin.ofNat 65536 events.length
      let c := c.writeStorage macroLen
      { c with
        storage := overwrite c.storage c.storageCursor (events.take macroLen)
        storageCursor := c.storageCursor + macroLen }
    | .program program => c.writeIndex (program ||| 0x8000)

/-- `InsufficentStorageException`. -/
structure InsufficentStorage where
  bytes : Nat
  avail : Nat
  storageType : String
  deriving DecidableEq

/-- The output of `encodeTriggers`, once the sizes are settled. -/
def buildOutput (eTriggers : List EncodedTrigger) (indexSize storageBytesRequired : Nat) :
    List Byte × List Byte :=
  let start : Cursors := ⟨List.replicate indexSize 0xff, 0, List.replicate storageBytesRequired 0, 0⟩
  let start := if storageBytesRequired ≠ 0 then
      start.writeStorage (Fin.ofNat 65536 (storageBytesRequired - 2))
    else start
  let done := eTriggers.foldl (EncodedTrigger.encode start.storageCursor) start
  (done.index, done.storage)

/-- `eTriggers`: the triggers that have keys, encoded. -/
def encoded (triggers : List Trigger) : List EncodedTrigger :=
  (triggers.filter (·.triggerKeys ≠ [])).map .ofTrigger

/-- `Trigger::encodeTriggers`; `qSort` is the library's. -/
def encodeTriggers (qSort : Sorting EncodedTrigger.NotAfter) (triggers : List Trigger)
    (keysPerTrigger indexSize storageSize : Nat) : Except InsufficentStorage (List Byte × List Byte) :=
  let indexBytesRequired := triggers.length * (keysPerTrigger + 2)
  if indexBytesRequired > indexSize then
    .error ⟨indexBytesRequired, indexSize, "macro index"⟩
  else
    let eTriggers := encoded triggers
    let storageBytesRequired := eTriggers.foldl (fun n et => n + et.storageRequired) 2
    -- with no storage and no macros there is no end offset either
    if storageSize = 0 ∧ storageBytesRequired = 2 then
      .ok (buildOutput (qSort.sort eTriggers) indexSize 0)
    else if storageBytesRequired > storageSize then
      .error ⟨storageBytesRequired, storageSize, "macro storage"⟩
    else .ok (buildOutput (qSort.sort eTriggers) indexSize storageBytesRequired)

/-! ## Writing through cursors -/

/-- Writing over a block of the same length. -/
theorem overwrite_eq (pre old post data : List Byte) (h : old.length = data.length) :
    overwrite (pre ++ (old ++ post)) pre.length data = pre ++ data ++ post := by
  have hdrop : (pre ++ (old ++ post)).drop (pre.length + data.length) = post := by
    rw [← h, ← List.length_append, ← List.append_assoc]
    exact List.drop_left
  rw [overwrite, List.take_left, hdrop]

/-- Two arrays, written up to the cursors. -/
def Cursors.at (index restIndex storage restStorage : List Byte) : Cursors :=
  ⟨index ++ restIndex, index.length, storage ++ restStorage, storage.length⟩

variable {index restIndex storage restStorage old oldIndex oldStorage : List Byte} {k : Nat}

theorem Cursors.writeIndex_at (val : Fin 65536) (h : old.length = 2) :
    (Cursors.at index (old ++ restIndex) storage restStorage).writeIndex val =
      .at (index ++ shortBytes val) restIndex storage restStorage := by
  have hwrite := overwrite_eq index old restIndex (shortBytes val) h
  simp only [Cursors.at, Cursors.writeIndex, hwrite, List.length_append, shortBytes_length]

theorem Cursors.writeStorage_at (val : Fin 65536) (h : old.length = 2) :
    (Cursors.at index restIndex storage (old ++ restStorage)).writeStorage val =
      .at index restIndex (storage ++ shortBytes val) restStorage := by
  have hwrite := overwrite_eq storage old restStorage (shortBytes val) h
  simp only [Cursors.at, Cursors.writeStorage, hwrite, List.length_append, shortBytes_length]

/-- The `memcpy` of the events, at the storage cursor. -/
theorem Cursors.writeEvents_at {c : Cursors} {events : List Byte} {len : Nat}
    (hc : c = .at index restIndex storage (old ++ restStorage)) (hlen : len = events.length)
    (h : old.length = events.length) :
    ({ c with
      storage := overwrite c.storage c.storageCursor (events.take len)
      storageCursor := c.storageCursor + len } : Cursors) =
      .at index restIndex (storage ++ events) restStorage := by
  subst hc hlen
  have hwrite := overwrite_eq storage old restStorage events h
  simp only [Cursors.at, List.take_length, hwrite, List.length_append]

/-- As an item of the format. -/
def EncodedTrigger.item (e : EncodedTrigger) : Item := (e.keys, e.data)

/-- An encoded trigger of a device with `k` keys for each. -/
structure EncodedTrigger.Formed (k : Nat) (e : EncodedTrigger) : Prop where
  perTrigger : e.keysPerTrigger = k
  length : e.keys.length = k
  head : e.keys.getD 0 0 ≠ noKey

theorem EncodedTrigger.storageRequired_eq (e : EncodedTrigger) :
    e.storageRequired = (body e.data).length := by
  rw [EncodedTrigger.storageRequired]
  cases e.data with
  | program number => rfl
  | events events => rw [body, record_length, Nat.add_comm]

/-- One trigger writes its entry and its record. -/
theorem EncodedTrigger.encode_at {e : EncodedTrigger} (he : e.Formed k) {base : Nat}
    (hindex : oldIndex.length = k + 2) (hstorage : oldStorage.length = (body e.data).length)
    (hsmall : (body e.data).length < 65536) :
    EncodedTrigger.encode base (.at index (oldIndex ++ restIndex) storage (oldStorage ++ restStorage)) e =
      .at (index ++ (e.keys ++ shortBytes (value (storage.length - base) e.data))) restIndex
        (storage ++ body e.data) restStorage := by
  obtain ⟨oldKeys, oldVal, rfl, hkeys⟩ : ∃ a b, oldIndex = a ++ b ∧ a.length = k :=
    ⟨oldIndex.take k, oldIndex.drop k, (List.take_append_drop _ _).symm, by simp; omega⟩
  have hval : oldVal.length = 2 := by rw [List.length_append] at hindex; omega
  have hkeysWritten : ({ Cursors.at index (oldKeys ++ oldVal ++ restIndex) storage
      (oldStorage ++ restStorage) with
        index := overwrite (index ++ (oldKeys ++ oldVal ++ restIndex)) index.length e.keys
        indexCursor := index.length + e.keysPerTrigger } : Cursors) =
      .at (index ++ e.keys) (oldVal ++ restIndex) storage (oldStorage ++ restStorage) := by
    rw [List.append_assoc oldKeys, overwrite_eq index oldKeys _ e.keys (by rw [hkeys, he.length])]
    simp only [Cursors.at, List.length_append, he.length, he.perTrigger]
  show (if e.keys.getD 0 0 = noKey then _ else _) = _
  rw [if_neg he.head]
  cases hdata : e.data with
  | program number =>
    rw [hdata] at hstorage
    obtain rfl : oldStorage = [] := List.length_eq_zero_iff.mp hstorage
    refine (congrArg (Cursors.writeIndex · (number ||| 0x8000)) hkeysWritten).trans ?_
    rw [Cursors.writeIndex_at _ hval, List.append_assoc index, body, List.append_nil,
      List.nil_append, value]
  | events events =>
    rw [hdata] at hstorage hsmall
    rw [body, record_length] at hstorage hsmall
    obtain ⟨oldLen, oldEvents, rfl, hlen⟩ : ∃ a b, oldStorage = a ++ b ∧ a.length = 2 :=
      ⟨oldStorage.take 2, oldStorage.drop 2, (List.take_append_drop _ _).symm, by simp; omega⟩
    have hevents : oldEvents.length = events.length := by rw [List.length_append] at hstorage; omega
    have hmod : (Fin.ofNat 65536 events.length).val = events.length := Nat.mod_eq_of_lt (by omega)
    rw [List.append_assoc oldLen] at hkeysWritten ⊢
    have hlenWritten := congrArg (fun c => (c.writeIndex (Fin.ofNat 65536 (storage.length - base))).writeStorage
      (Fin.ofNat 65536 events.length)) hkeysWritten
    simp only [Cursors.writeIndex_at _ hval, Cursors.writeStorage_at _ hlen] at hlenWritten
    refine (Cursors.writeEvents_at hlenWritten hmod hevents).trans ?_
    rw [List.append_assoc index, List.append_assoc storage, body, value, record]

/-- The loop writes the two texts of the format. -/
theorem encode_foldl {base : Nat} : ∀ (es : List EncodedTrigger)
    (index storage oldIndex oldStorage : List Byte), (∀ e ∈ es, e.Formed k) → base ≤ storage.length →
    oldIndex.length = es.length * (k + 2) →
    oldStorage.length = (storageBytes (es.map (·.item))).length → oldStorage.length < 65536 →
    es.foldl (EncodedTrigger.encode base)
        (.at index (oldIndex ++ restIndex) storage (oldStorage ++ restStorage)) =
      .at (index ++ indexBytes (storage.length - base) (es.map (·.item))) restIndex
        (storage ++ storageBytes (es.map (·.item))) restStorage := by
  intro es
  induction es with
  | nil =>
    intro index storage oldIndex oldStorage _ _ hindex hstorage _
    obtain rfl : oldIndex = [] := List.length_eq_zero_iff.mp (by simpa using hindex)
    obtain rfl : oldStorage = [] := List.length_eq_zero_iff.mp (by simpa using hstorage)
    simp [indexBytes]
  | cons e es ih =>
    intro index storage oldIndex oldStorage hformed hbase hindex hstorage hsmall
    have hsize : oldStorage.length =
        (body e.data).length + (storageBytes (es.map (·.item))).length := by
      rw [hstorage, List.map_cons, storageBytes_cons, List.length_append]
      rfl
    have hn : oldIndex.length = k + 2 + es.length * (k + 2) := by
      rw [hindex, List.length_cons, Nat.succ_mul, Nat.add_comm]
    obtain ⟨i₁, i₂, rfl, hi₁⟩ : ∃ a b, oldIndex = a ++ b ∧ a.length = k + 2 :=
      ⟨oldIndex.take (k + 2), oldIndex.drop (k + 2), (List.take_append_drop _ _).symm, by simp; omega⟩
    obtain ⟨s₁, s₂, rfl, hs₁⟩ : ∃ a b, oldStorage = a ++ b ∧ a.length = (body e.data).length :=
      ⟨oldStorage.take (body e.data).length, oldStorage.drop (body e.data).length,
        (List.take_append_drop _ _).symm, by simp; omega⟩
    rw [List.length_append] at hn hsize hsmall
    rw [List.foldl_cons, List.append_assoc i₁, List.append_assoc s₁,
      EncodedTrigger.encode_at (hformed e List.mem_cons_self) hi₁ hs₁ (by omega),
      ih _ _ i₂ s₂ (fun e he => hformed e (List.mem_cons_of_mem _ he))
        (by rw [List.length_append]; omega) (by omega) (by omega) (by omega)]
    have hoffset : (storage ++ body e.data).length - base =
        storage.length - base + (body e.data).length := by
      rw [List.length_append]
      omega
    simp only [hoffset, List.map_cons, indexBytes, storageBytes_cons, EncodedTrigger.item,
      List.append_assoc]

/-! ## What is written -/

/-- The output for `items`, in their order: the index filled up with `0xff`, and the records behind
    their total length, or nothing where there is no storage. -/
structure Written (k indexSize storageSize : Nat) (items : List Item) (index storage : List Byte) :
    Prop where
  length_eq : ∀ item ∈ items, item.1.length = k
  fits : items.length * (k + 2) ≤ indexSize
  index_eq : index =
    indexBytes 0 items ++ List.replicate (indexSize - items.length * (k + 2)) 0xff
  storage_eq : storage = [] ∧ storageSize = 0 ∧ storageBytes items = [] ∨
    storage = shortBytes (Fin.ofNat 65536 (storageBytes items).length) ++ storageBytes items ∧
      storage.length ≤ storageSize

theorem EncodedTrigger.ofTrigger_formed {t : Trigger} (h : t.Fits k) (hne : t.triggerKeys ≠ []) :
    (EncodedTrigger.ofTrigger t).Formed k where
  perTrigger := h.perTrigger
  length := by
    show (t.triggerKeys ++ List.replicate _ _).length = k
    rw [List.length_append, List.length_replicate, h.perTrigger]
    exact Nat.add_sub_cancel' h.length_le
  head := by
    obtain ⟨key, keys, hkeys⟩ := List.exists_cons_of_ne_nil hne
    show (t.triggerKeys ++ _).getD 0 0 ≠ noKey
    rw [hkeys]
    intro heq
    refine h.noKey_notMem ?_
    rw [hkeys, ← heq]
    exact List.mem_cons_self

theorem encoded_formed {triggers : List Trigger} (h : ∀ t ∈ triggers, t.triggerKeys ≠ [] → t.Fits k) :
    ∀ e ∈ encoded triggers, e.Formed k := by
  intro e he
  obtain ⟨t, ht, rfl⟩ := List.mem_map.mp he
  obtain ⟨hmem, hne⟩ := List.mem_filter.mp ht
  exact EncodedTrigger.ofTrigger_formed (h t hmem (of_decide_eq_true hne)) (of_decide_eq_true hne)

theorem storageRequired_foldl : ∀ (es : List EncodedTrigger) (n : Nat),
    es.foldl (fun n et => n + et.storageRequired) n = n + (storageBytes (es.map (·.item))).length := by
  intro es
  induction es with
  | nil => exact fun n => rfl
  | cons e es ih =>
    intro n
    rw [List.foldl_cons, ih, List.map_cons, storageBytes_cons, List.length_append,
      e.storageRequired_eq, Nat.add_assoc]
    rfl

theorem storageBytes_length_perm {xs ys : List Item} (h : xs.Perm ys) :
    (storageBytes xs).length = (storageBytes ys).length :=
  (h.flatMap_right _).length_eq

/-- The arrays as the loop leaves them. -/
theorem buildOutput_eq {es : List EncodedTrigger} {indexSize required : Nat}
    (hformed : ∀ e ∈ es, e.Formed k) (hfits : es.length * (k + 2) ≤ indexSize)
    (hsmall : (storageBytes (es.map (·.item))).length < 65536)
    (hrequired : required = 0 ∧ storageBytes (es.map (·.item)) = [] ∨
      required = 2 + (storageBytes (es.map (·.item))).length) :
    buildOutput es indexSize required =
      (indexBytes 0 (es.map (·.item)) ++ List.replicate (indexSize - es.length * (k + 2)) 0xff,
        if required = 0 then [] else
          shortBytes (Fin.ofNat 65536 (required - 2)) ++ storageBytes (es.map (·.item))) := by
  have hindex : List.replicate indexSize (0xff : Byte) = List.replicate (es.length * (k + 2)) 0xff ++
      List.replicate (indexSize - es.length * (k + 2)) 0xff := by
    rw [← List.replicate_add, Nat.add_sub_cancel' hfits]
  rcases hrequired with ⟨rfl, hnone⟩ | hreq
  · have hrun := @encode_foldl (List.replicate (indexSize - es.length * (k + 2)) 0xff) [] k 0 es [] []
      (List.replicate (es.length * (k + 2)) 0xff) [] hformed (Nat.le_refl 0) List.length_replicate
      (by rw [hnone]) (by decide)
    rw [← hindex, hnone] at hrun
    have hbuild : buildOutput es indexSize 0 =
        ((es.foldl (EncodedTrigger.encode 0)
            (.at [] (List.replicate indexSize 0xff) [] ([] ++ []))).index,
          (es.foldl (EncodedTrigger.encode 0)
            (.at [] (List.replicate indexSize 0xff) [] ([] ++ []))).storage) := rfl
    rw [hbuild, hrun]
    rfl
  · have hpos : required ≠ 0 := by omega
    obtain ⟨oldEnd, old, hold, hend⟩ : ∃ a b, List.replicate required (0 : Byte) = a ++ b ∧
        a.length = 2 :=
      ⟨_, _, (List.take_append_drop 2 _).symm, by rw [List.length_take, List.length_replicate]; omega⟩
    have hlen : old.length = (storageBytes (es.map (·.item))).length := by
      have := congrArg List.length hold
      rw [List.length_replicate, List.length_append] at this
      omega
    have hrun := @encode_foldl (List.replicate (indexSize - es.length * (k + 2)) 0xff) [] k 2 es []
      (shortBytes (Fin.ofNat 65536 (required - 2))) (List.replicate (es.length * (k + 2)) 0xff) old
      hformed (Nat.le_refl 2) List.length_replicate hlen (by omega)
    rw [← hindex, List.append_nil] at hrun
    have hstart : (Cursors.at [] (List.replicate indexSize 0xff) [] (oldEnd ++ old)).writeStorage
        (Fin.ofNat 65536 (required - 2)) =
          .at [] (List.replicate indexSize 0xff) (shortBytes (Fin.ofNat 65536 (required - 2))) old :=
      Cursors.writeStorage_at _ hend
    have hinit : (⟨List.replicate indexSize 0xff, 0, List.replicate required 0, 0⟩ : Cursors) =
        .at [] (List.replicate indexSize 0xff) [] (oldEnd ++ old) := by
      rw [← hold]
      rfl
    simp only [buildOutput, hinit, if_pos hpos, hstart, if_neg hpos]
    have hcursor : (Cursors.at [] (List.replicate indexSize 0xff)
        (shortBytes (Fin.ofNat 65536 (required - 2))) old).storageCursor = 2 := rfl
    rw [hcursor, hrun]
    simp only [Cursors.at, List.append_nil, shortBytes_length, Nat.sub_self, List.nil_append]

/-- **What `encodeTriggers` writes** for a list it accepts. -/
theorem encodeTriggers_ok {qSort : Sorting EncodedTrigger.NotAfter} {triggers : List Trigger}
    {indexSize storageSize : Nat} {index storage : List Byte}
    (hfit : ∀ t ∈ triggers, t.triggerKeys ≠ [] → t.Fits k) (hsize : storageSize < 65536)
    (h : encodeTriggers qSort triggers k indexSize storageSize = .ok (index, storage)) :
    Written k indexSize storageSize ((qSort.sort (encoded triggers)).map (·.item)) index storage := by
  obtain ⟨es, hes⟩ : ∃ es, qSort.sort (encoded triggers) = es := ⟨_, rfl⟩
  have hperm : es.Perm (encoded triggers) := hes ▸ qSort.perm _
  have hes_formed : ∀ e ∈ es, e.Formed k := fun e he =>
    encoded_formed hfit e (hperm.mem_iff.mp he)
  have hcount : es.length ≤ triggers.length := by
    rw [hperm.length_eq, encoded, List.length_map]
    exact List.length_filter_le _ _
  have htotal : (encoded triggers).foldl (fun n et => n + et.storageRequired) 2 =
      2 + (storageBytes (es.map (·.item))).length := by
    rw [storageRequired_foldl, storageBytes_length_perm (hperm.map _)]
  have hlength : ∀ item ∈ es.map (·.item), item.1.length = k := by
    intro item hitem
    obtain ⟨e, he, rfl⟩ := List.mem_map.mp hitem
    exact (hes_formed e he).length
  rw [encodeTriggers] at h
  simp only [htotal, hes] at h
  rw [hes]
  split at h
  · exact absurd h (by simp)
  next hfits =>
  have hfits' : es.length * (k + 2) ≤ indexSize :=
    (Nat.mul_le_mul_right _ hcount).trans (Nat.le_of_not_lt hfits)
  split at h
  next hnone =>
    obtain ⟨rfl, hreq⟩ := hnone
    have hempty : storageBytes (es.map (·.item)) = [] := List.length_eq_zero_iff.mp (by omega)
    rw [buildOutput_eq hes_formed hfits' (by omega) (.inl ⟨rfl, hempty⟩)] at h
    obtain ⟨rfl, rfl⟩ := Prod.mk.inj (Except.ok.inj h)
    exact ⟨hlength, by rwa [List.length_map], by rw [List.length_map], .inl ⟨rfl, rfl, hempty⟩⟩
  next hsome =>
  split at h
  · exact absurd h (by simp)
  next hroom =>
  rw [buildOutput_eq hes_formed hfits' (by omega) (.inr rfl)] at h
  obtain ⟨rfl, rfl⟩ := Prod.mk.inj (Except.ok.inj h)
  have hne : 2 + (storageBytes (es.map (·.item))).length ≠ 0 := by omega
  refine ⟨hlength, by rwa [List.length_map], by rw [List.length_map], .inr ?_⟩
  rw [if_neg hne, Nat.add_sub_cancel_left, List.length_append, shortBytes_length]
  exact ⟨rfl, Nat.le_of_not_lt hroom⟩

end KeyboardFirmware.Client
