/-
  A firmware that holds what a client wrote.

  The index is an array of packed `macro_idx_entry`, the storage begins with the end offset.  Whatever
  client wrote them, bytes in the common format, the unused entries with filler keys, satisfy the
  invariant of the macro store (`Upload.storeInv`), and looking up the keys of a trigger leads to what
  the client was given for it (`Upload.agrees`).
-/
import KeyboardFirmware.Client.Format
import KeyboardFirmware.Macro.Playback

namespace KeyboardFirmware.Client

open Lib

/-! ## What the firmware sees -/

/-- The key at the front of some bytes. -/
def toKey (bs : List Byte) : MacroIdxKey :=
  ⟨(List.range macroMaxKeys).map fun j => bs.getD j 0, by simp⟩

/-- `sizeof(macro_idx_entry)`. -/
def entrySize : Nat := macroMaxKeys + 2

/-- The array `macro_index`, as the bytes of the index are laid out. -/
def indexAt (index : List Byte) : MacroIndex := fun i =>
  ⟨toKey (index.drop (i * entrySize)), (readShort index (i * entrySize + macroMaxKeys)).getD 0⟩

/-- The store after both uploads, over what the storage held before. -/
def uploaded (mem : Storage) (index storage : List Byte) : MacroStore :=
  ⟨indexAt index, writeBytes mem 0 storage, none⟩

/-- The events read during a playback, at most `calls` of them: one by each call of
    `macros_fill_next_report` as long as some remain. -/
def eventsRead (mem : Storage) : Nat → PlaybackState → List HidKeycode
  | 0, _ => []
  | calls + 1, ps =>
    if ps.remaining ≠ 0 then
      mem ps.cursor :: eventsRead mem calls (macrosFillNextReport mem ps emptyReport).2.1
    else []

/-- The entry is one for these contents: its kind, and its value or what playing it reads. -/
def Stands (st : MacroStore) (entry : Nat) : TriggerContents → Prop
  | .program number => macroIdxGetData st.index entry = ⟨.programEntry, number⟩
  | .events events =>
    (macroIdxGetData st.index entry).type = .macroEntry ∧
      eventsRead st.mem 65536 (macrosStartPlayback st.mem (macroIdxGetData st.index entry).data) = events

/-- A set of keys, in some order, that the firmware takes for a trigger. -/
structure IsTrigger (keys : List LogicalKeycode) : Prop where
  nonempty : keys ≠ []
  nodup : keys.Nodup
  noKey_notMem : noKey ∉ keys
  length_le : keys.length ≤ macroMaxKeys

instance (keys : List LogicalKeycode) : Decidable (IsTrigger keys) :=
  decidable_of_iff (keys ≠ [] ∧ keys.Nodup ∧ noKey ∉ keys ∧ keys.length ≤ macroMaxKeys)
    ⟨fun ⟨h₁, h₂, h₃, h₄⟩ => ⟨h₁, h₂, h₃, h₄⟩, fun h => ⟨h.1, h.2, h.3, h.4⟩⟩

/-- The keys and contents fit the device. -/
structure Fits (hw : Hardware) (assigned : List Item) : Prop where
  keys : ∀ a ∈ assigned, IsTrigger a.1
  distinct : assigned.Pairwise fun a b => ¬ a.1.Perm b.1
  count : assigned.length ≤ hw.macroIndexCount
  size : 2 + (storageBytes assigned).length ≤ hw.macrosSize
  programs : ∀ a ∈ assigned, ∀ number, a.2 = .program number → number.val < 0x8000

/-- The firmware and a client agree: the store is in order, pressing the keys of a trigger in any order
    finds its entry, and no other keys find one. -/
structure Agrees (hw : Hardware) (st : MacroStore) (assigned : List Item) : Prop where
  store : ∃ n recs, StoreInv hw st.index st.mem n recs none
  found : ∀ a ∈ assigned, ∀ (buf : MacroIdxKey) (pressed : List LogicalKeycode), pressed.Perm a.1 →
    buf.keys.take pressed.length = pressed →
    ∃ entry, macroIdxLookup hw st.index (macroIdxFormatKey buf pressed.length).1 = some entry ∧
      Stands st entry a.2
  absent : ∀ (buf : MacroIdxKey) (pressed : List LogicalKeycode), IsTrigger pressed →
    buf.keys.take pressed.length = pressed → (∀ a ∈ assigned, ¬ pressed.Perm a.1) →
    macroIdxLookup hw st.index (macroIdxFormatKey buf pressed.length).1 = none

/-! ## Reading events -/

theorem eventsRead_eq (mem : Storage) : ∀ (calls : Nat) (ps : PlaybackState), ps.remaining.val ≤ calls →
    eventsRead mem calls ps = Lib.readBytes mem ps.cursor ps.remaining := by
  intro calls
  induction calls with
  | zero =>
    intro ps h
    rw [Nat.le_zero.mp h]
    rfl
  | succ calls ih =>
    intro ps h
    rw [eventsRead]
    by_cases hzero : ps.remaining = 0
    · rw [if_neg (not_not.mpr hzero), hzero]
      rfl
    · rw [if_pos hzero, macrosFillNextReport, if_pos hzero]
      have hpos : 1 ≤ ps.remaining := Fin.one_le_of_ne_zero hzero
      have hval : (ps.remaining - 1).val = ps.remaining.val - 1 := by
        rw [Fin.sub_val_of_le hpos]
        rfl
      have hne : ps.remaining.val ≠ 0 := fun h0 => hzero (Fin.ext h0)
      obtain ⟨left, hleft⟩ : ∃ left, ps.remaining.val = left + 1 := ⟨_, (Nat.succ_pred hne).symm⟩
      rw [ih _ (by show (ps.remaining - 1).val ≤ calls; omega)]
      show mem ps.cursor :: Lib.readBytes mem (ps.cursor + 1) (ps.remaining - 1).val = _
      rw [hval, hleft, Nat.add_sub_cancel, Lib.readBytes, Lib.readBytes, List.range_succ_eq_map, List.map_cons,
        List.map_map]
      refine congrArg _ (List.map_congr_left fun i _ => ?_)
      show mem (ps.cursor + 1 + i) = mem (ps.cursor + (i + 1))
      rw [Nat.add_assoc, Nat.add_comm 1]

/-- Playback reads what `macroEvents` says is stored. -/
theorem eventsRead_start (mem : Storage) (offset : Nat) :
    eventsRead mem 65536 (macrosStartPlayback mem offset) = macroEvents mem offset :=
  eventsRead_eq mem 65536 _ (Nat.le_of_lt (storageReadShort mem (macros offset)).isLt)

/-! ## Entries -/

theorem toKey_append {key : List Byte} (h : key.length = macroMaxKeys) (post : List Byte) :
    toKey (key ++ post) = toKey key := by
  apply MacroIdxKey.keys_injective
  show List.map _ _ = List.map _ _
  refine List.map_congr_left fun j hj => ?_
  rw [List.mem_range] at hj
  rw [List.getD_append _ _ _ _ (by omega)]

@[simp] theorem toKey_keys (key : MacroIdxKey) : toKey key.keys = key := by
  apply MacroIdxKey.keys_injective
  refine List.ext_getElem (by simp [toKey, key.keys_length]) fun j h1 h2 => ?_
  simp only [toKey, List.getElem_map, List.getElem_range]
  rw [List.getD_eq_getElem _ _ h2]

/-- The entry behind `n` complete ones. -/
theorem indexAt_append {pre key post : List Byte} {n : Nat} (hpre : pre.length = n * entrySize)
    (hkey : key.length = macroMaxKeys) (v : Fin 65536) :
    indexAt (pre ++ (key ++ shortBytes v ++ post)) n = ⟨toKey key, v⟩ := by
  have hvalue := readShort_shortBytes (pre ++ key) post v
  rw [List.append_assoc pre, List.append_assoc pre, List.length_append, hpre, hkey] at hvalue
  rw [indexAt, hvalue, ← hpre, List.drop_left, List.append_assoc key, toKey_append hkey]
  rfl

/-! ## An upload -/

/-- Keys in order, filled up. -/
def filled (keys : List LogicalKeycode) : List LogicalKeycode :=
  keys.insertionSort (· ≤ ·) ++ List.replicate (macroMaxKeys - keys.length) noKey

/-- What a client sends for `assigned`: `items` are its sorted entries, `dummy` an unused one. -/
structure Upload (hw : Hardware) (assigned items : List Item) (dummy index storage : List Byte) :
    Prop where
  fits : Fits hw assigned
  perm : items.Perm (assigned.map fun a => (filled a.1, a.2))
  sorted : items.Pairwise fun a b => a.1 ≤ b.1
  dummy_length : dummy.length = entrySize
  dummy_key : toKey dummy = emptyKey
  index_eq : index = indexBytes 0 items ++
    (List.replicate (hw.macroIndexCount - items.length) dummy).flatten
  storage_eq : storage = shortBytes (Fin.ofNat 65536 (storageBytes items).length) ++ storageBytes items

/-- The trigger of some keys. -/
def IsTrigger.trigger {keys : List LogicalKeycode} (h : IsTrigger keys) : KeyboardFirmware.Trigger where
  set := keys.toFinset
  nonempty := List.toFinset_nonempty_iff _ |>.mpr h.nonempty
  card_le := by rw [List.toFinset_card_of_nodup h.nodup]; exact h.length_le
  noKey_notMem := by rw [List.mem_toFinset]; exact h.noKey_notMem

theorem IsTrigger.trigger_key {keys : List LogicalKeycode} (h : IsTrigger keys) :
    h.trigger.key.keys = filled keys := by
  have hsort : keys.toFinset.sort (· ≤ ·) = keys.insertionSort (· ≤ ·) := by
    have hperm := List.perm_insertionSort (· ≤ ·) keys
    rw [← List.toFinset_eq_of_perm _ _ hperm]
    exact (List.toFinset_sort _ (hperm.nodup_iff.mpr h.nodup)).mpr
      (List.pairwise_insertionSort (· ≤ ·) keys)
  show keys.toFinset.sort (· ≤ ·) ++ List.replicate (macroMaxKeys - keys.toFinset.card) noKey = _
  rw [hsort, List.toFinset_card_of_nodup h.nodup, filled]

/-- Filling up forgets the order and nothing else. -/
theorem filled_inj {keys keys' : List LogicalKeycode} (h : IsTrigger keys) (h' : IsTrigger keys') :
    filled keys = filled keys' ↔ keys.Perm keys' := by
  constructor
  · intro heq
    rw [← h.trigger_key, ← h'.trigger_key] at heq
    have hset := KeyboardFirmware.Trigger.key_inj.mp (MacroIdxKey.keys_injective heq)
    exact (List.perm_of_nodup_nodup_toFinset_eq h.nodup h'.nodup hset)
  · intro hperm
    have hsort : keys.insertionSort (· ≤ ·) = keys'.insertionSort (· ≤ ·) :=
      List.Perm.eq_of_pairwise (fun _ _ _ _ => le_antisymm)
        (List.pairwise_insertionSort _ _) (List.pairwise_insertionSort _ _)
        (((List.perm_insertionSort _ keys).trans hperm).trans (List.perm_insertionSort _ keys').symm)
    rw [filled, filled, hsort, hperm.length_eq]

/-- **The firmware formats the keys** of a trigger, however pressed, as the clients fill them up. -/
theorem format_filled {pressed : List LogicalKeycode} (h : IsTrigger pressed) {buf : MacroIdxKey}
    (hbuf : buf.keys.take pressed.length = pressed) :
    (macroIdxFormatKey buf pressed.length).1 = h.trigger.key :=
  congrArg Prod.fst (format_key_spec h.trigger buf pressed h.nodup rfl hbuf)

variable {hw : Hardware} {assigned items : List Item} {dummy index storage : List Byte}

theorem Upload.item_trigger (h : Upload hw assigned items dummy index storage) {item : Item}
    (hitem : item ∈ items) : ∃ a ∈ assigned, ∃ ha : IsTrigger a.1,
      item = (ha.trigger.key.keys, a.2) := by
  obtain ⟨a, ha, rfl⟩ := List.mem_map.mp (h.perm.mem_iff.mp hitem)
  refine ⟨a, ha, h.fits.keys a ha, ?_⟩
  rw [IsTrigger.trigger_key]

theorem Upload.length_eq (h : Upload hw assigned items dummy index storage) :
    ∀ item ∈ items, item.1.length = macroMaxKeys := by
  intro item hitem
  obtain ⟨a, -, ha, rfl⟩ := h.item_trigger hitem
  exact ha.trigger.key.keys_length

/-- No two entries have the same key. -/
theorem Upload.ascending (h : Upload hw assigned items dummy index storage) :
    items.Pairwise fun a b => toKey a.1 < toKey b.1 := by
  have hne : items.Pairwise fun a b => a.1 ≠ b.1 := by
    have hassigned : (assigned.map fun a => ((filled a.1, a.2) : Item)).Pairwise
        fun a b => a.1 ≠ b.1 := by
      rw [List.pairwise_map]
      refine h.fits.distinct.imp_of_mem fun {a b} ha hb hperm heq => hperm ?_
      exact (filled_inj (h.fits.keys a ha) (h.fits.keys b hb)).mp heq
    exact (h.perm.pairwise_iff fun hab => hab.symm).mpr hassigned
  refine (h.sorted.and hne).imp_of_mem fun {a b} ha hb hab => ?_
  obtain ⟨x, -, hx, rfl⟩ := h.item_trigger ha
  obtain ⟨y, -, hy, rfl⟩ := h.item_trigger hb
  rw [toKey_keys, toKey_keys]
  exact lt_of_le_of_ne hab.1 fun hkey => hab.2 (congrArg MacroIdxKey.keys hkey)

/-- The entry of an item holds its key, and its value for the records in front of it. -/
theorem Upload.entry (h : Upload hw assigned items dummy index storage) {pre post : List Item}
    {item : Item} (heq : items = pre ++ item :: post) :
    indexAt index pre.length = ⟨toKey item.1, value (storageBytes pre).length item.2⟩ := by
  have hlen := h.length_eq
  rw [heq] at hlen
  have hpre := indexBytes_length 0 pre fun i hi => hlen i (List.mem_append_left _ hi)
  have hkey : item.1.length = macroMaxKeys := hlen item (by simp)
  have hsplit : index = indexBytes 0 pre ++ (item.1 ++ shortBytes (value (storageBytes pre).length item.2) ++
      (indexBytes ((storageBytes pre).length + (body item.2).length) post ++
        (List.replicate (hw.macroIndexCount - items.length) dummy).flatten)) := by
    rw [h.index_eq, heq, indexBytes_append, Nat.zero_add, indexBytes]
    simp only [List.append_assoc]
  rw [hsplit]
  exact indexAt_append hpre hkey _

theorem Upload.entry_getElem (h : Upload hw assigned items dummy index storage) {i : Nat}
    (hi : i < items.length) :
    indexAt index i = ⟨toKey items[i].1, value (storageBytes (items.take i)).length items[i].2⟩ := by
  have hsplit : items = items.take i ++ items[i] :: items.drop (i + 1) := by
    rw [List.getElem_cons_drop, List.take_append_drop]
  have hentry := h.entry hsplit
  rwa [List.length_take, Nat.min_eq_left (Nat.le_of_lt hi)] at hentry

/-- The other entries are empty. -/
theorem Upload.filler (h : Upload hw assigned items dummy index storage) {i : Nat}
    (hi : items.length ≤ i) (hcount : i < hw.macroIndexCount) : (indexAt index i).key = emptyKey := by
  obtain ⟨j, rfl⟩ : ∃ j, i = items.length + j := ⟨_, (Nat.add_sub_cancel' hi).symm⟩
  obtain ⟨m, hm⟩ : ∃ m, hw.macroIndexCount - items.length = j + (m + 1) :=
    ⟨hw.macroIndexCount - items.length - j - 1, by omega⟩
  have hlen := indexBytes_length 0 items h.length_eq
  have hfront : (List.replicate j dummy).flatten.length = j * entrySize := by
    rw [List.length_flatten, List.map_replicate, List.sum_replicate_nat, h.dummy_length]
  have hdrop : index.drop ((items.length + j) * entrySize) =
      dummy ++ (List.replicate m dummy).flatten := by
    rw [h.index_eq, hm, List.replicate_add, List.replicate_succ, List.flatten_append,
      List.flatten_cons, ← List.append_assoc, Nat.add_mul,
      List.drop_left' (by rw [List.length_append, hlen, hfront]; rfl)]
  show toKey (index.drop _) = emptyKey
  obtain ⟨key, rest, hdummy, hkey⟩ : ∃ key rest, dummy = key ++ rest ∧ key.length = macroMaxKeys :=
    ⟨_, _, (List.take_append_drop macroMaxKeys dummy).symm, by
      rw [List.length_take, h.dummy_length]; rfl⟩
  have hfirst := h.dummy_key
  rw [hdummy, toKey_append hkey] at hfirst
  rw [hdrop, hdummy, List.append_assoc, toKey_append hkey, hfirst]

/-- **The index** satisfies its invariant. -/
theorem Upload.indexInv (h : Upload hw assigned items dummy index storage) :
    IndexInv hw (indexAt index) items.length := by
  refine ⟨?_, fun i hi => ?_, fun i j hij hj => ?_, fun i hi hc => h.filler hi hc⟩
  · rw [h.perm.length_eq, List.length_map]
    exact h.fits.count
  · obtain ⟨a, -, ha, heq⟩ := h.item_trigger (List.getElem_mem hi)
    refine ⟨ha.trigger, ?_⟩
    rw [h.entry_getElem hi, heq, toKey_keys]
  · rw [h.entry_getElem (hij.trans hj), h.entry_getElem hj]
    exact List.pairwise_iff_getElem.mp h.ascending i j (hij.trans hj) hj hij

/-! ## The records -/

/-- The macro of an item, as the store invariant lists it. -/
def recorded (item : Item) : Option Recorded :=
  match item.2 with
  | .program _ => none
  | .events events => some (toKey item.1, events)

theorem recorded_eq_some {item : Item} {k : MacroIdxKey} {ev : List HidKeycode} :
    recorded item = some (k, ev) ↔ item.2 = .events ev ∧ toKey item.1 = k := by
  obtain ⟨key, contents⟩ := item
  cases contents with
  | program number => simp [recorded]
  | events events => simp [recorded, and_comm]

/-- The area of the macros is the records of the items. -/
theorem encode_recorded (items : List Item) : encode (items.filterMap recorded) = storageBytes items := by
  induction items with
  | nil => rfl
  | cons item items ih =>
    obtain ⟨key, contents⟩ := item
    rw [storageBytes_cons, ← ih]
    cases contents with
    | program number => rfl
    | events events => rfl

theorem placed_recorded {o : Nat} {k : MacroIdxKey} {ev : List HidKeycode} :
    Placed (items.filterMap recorded) o k ev ↔
      ∃ pre item post, items = pre ++ item :: post ∧ item.2 = .events ev ∧ toKey item.1 = k ∧
        (storageBytes pre).length = o := by
  constructor
  · rintro ⟨recsPre, recsPost, heq, rfl⟩
    obtain ⟨pre, rest, rfl, rfl, hrest⟩ := List.filterMap_eq_append_iff.mp heq
    obtain ⟨skipped, item, post, rfl, hskipped, hitem, -⟩ := List.filterMap_eq_cons_iff.mp hrest
    obtain ⟨hev, hk⟩ := recorded_eq_some.mp hitem
    refine ⟨pre ++ skipped, item, post, by simp, hev, hk, ?_⟩
    have hnone : skipped.filterMap recorded = [] := List.filterMap_eq_nil_iff.mpr hskipped
    rw [← encode_recorded, List.filterMap_append, hnone, List.append_nil]
  · rintro ⟨pre, item, post, rfl, hev, hk, rfl⟩
    refine ⟨pre.filterMap recorded, post.filterMap recorded, ?_, by rw [encode_recorded]⟩
    rw [List.filterMap_append, List.filterMap_cons_some (recorded_eq_some.mpr ⟨hev, hk⟩)]

theorem Upload.storage_length (h : Upload hw assigned items dummy index storage) :
    storage.length = macros (storageBytes items).length ∧
      macros (storageBytes items).length ≤ hw.macrosSize := by
  have hsame : (storageBytes items).length = (storageBytes assigned).length := by
    have hbodies : storageBytes (assigned.map fun a => (filled a.1, a.2)) = storageBytes assigned :=
      List.flatMap_map ..
    rw [← hbodies]
    exact (h.perm.flatMap_right _).length_eq
  rw [h.storage_eq, List.length_append, shortBytes_length, macros, hsame]
  exact ⟨rfl, h.fits.size⟩

/-- **The store** satisfies its invariant: the records lie one after the other up to the end offset,
    each at the offset in its entry. -/
theorem Upload.storeInv (h : Upload hw assigned items dummy index storage) (mem : Storage) :
    StoreInv hw (uploaded mem index storage).index (uploaded mem index storage).mem items.length
      (items.filterMap recorded) none := by
  have hsize := hw.size_le
  obtain ⟨-, hfits⟩ := h.storage_length
  have hbound : (storageBytes items).length < 65536 := by
    rw [macros] at hfits
    omega
  have hholds : Holds (writeBytes mem 0 storage) 0 storage := writeBytes_holds mem 0 storage
  rw [h.storage_eq] at hholds
  obtain ⟨hend, hrecords⟩ := holds_append.mp hholds
  refine ⟨h.indexInv, ?_, ?_, ?_, fun e hu hp _ => ?_, fun o k ev hplaced => ?_⟩
  · show (storageReadShort (writeBytes mem 0 storage) 0).val = _
    rw [h.storage_eq, storageReadShort_of_holds hend, encode_recorded, Fin.val_ofNat,
      Nat.mod_eq_of_lt hbound]
  · rw [encode_recorded]
    exact hfits
  · show Holds (writeBytes mem 0 storage) (macros 0) _
    rw [h.storage_eq, encode_recorded]
    exact hrecords
  · obtain ⟨i, hi, rfl⟩ := hu
    have hentry := h.entry_getElem hi
    have hsplit : items = items.take i ++ items[i] :: items.drop (i + 1) := by
      rw [List.getElem_cons_drop, List.take_append_drop]
    have hpre := congrArg (fun l => (storageBytes l).length) hsplit
    rw [storageBytes_append, List.length_append] at hpre
    change ¬ (indexAt index i).IsProgram at hp
    show ∃ ev, Placed _ (indexAt index i).val.val (indexAt index i).key ev
    rw [hentry] at hp ⊢
    cases hcontents : items[i].2 with
    | program number =>
      refine absurd ?_ hp
      show 0x8000 ≤ (value _ items[i].2).val
      rw [hcontents, value, or_program_bit]
      exact Nat.le_add_right _ _
    | events events =>
      refine ⟨events, placed_recorded.mpr ⟨_, _, _, hsplit, hcontents, rfl, ?_⟩⟩
      rw [value, Fin.val_ofNat, Nat.mod_eq_of_lt (by omega)]
  · obtain ⟨pre, item, post, heq, hev, rfl, rfl⟩ := placed_recorded.mp hplaced
    have hpre := congrArg (fun l => (storageBytes l).length) heq
    rw [storageBytes_append, List.length_append] at hpre
    have hlen := congrArg List.length heq
    rw [List.length_append, List.length_cons] at hlen
    refine ⟨by simp, Fin.ofNat 65536 (storageBytes pre).length, Nat.mod_eq_of_lt (by omega), pre.length,
      by omega, ?_⟩
    show indexAt index pre.length = _
    rw [h.entry heq, hev, value]

/-! ## Agreement -/

theorem IsTrigger.perm {keys keys' : List LogicalKeycode} (h : IsTrigger keys) (hperm : keys'.Perm keys) :
    IsTrigger keys' where
  nonempty hnil := h.nonempty (by rw [hnil] at hperm; exact hperm.nil_eq.symm)
  nodup := hperm.nodup_iff.mpr h.nodup
  noKey_notMem hmem := h.noKey_notMem (hperm.mem_iff.mp hmem)
  length_le := hperm.length_eq ▸ h.length_le

/-- The entry of an item is one for its contents. -/
theorem Upload.stands (h : Upload hw assigned items dummy index storage) (mem : Storage) {i : Nat}
    (hi : i < items.length) : Stands (uploaded mem index storage) i items[i].2 := by
  have hentry := h.entry_getElem hi
  have hinv := h.storeInv mem
  obtain ⟨a, ha, htrigger, heq⟩ := h.item_trigger (List.getElem_mem hi)
  have hcontents : items[i].2 = a.2 := by rw [heq]
  cases hc : items[i].2 with
  | program number =>
    have hnumber := h.fits.programs a ha number (hcontents ▸ hc)
    have hval : (indexAt index i).val = number ||| 0x8000 := by rw [hentry, hc, value]
    have hprogram : (indexAt index i).IsProgram := by
      rw [MacroIdxEntry.IsProgram, hval, or_program_bit]
      exact Nat.le_add_right _ _
    have htype := (macroIdxGetData_type (indexAt index) i).mpr hprogram
    have hdata : (macroIdxGetData (indexAt index) i).data = number := by
      apply Fin.ext
      show ((indexAt index i).val &&& 0x7fff).val = number.val
      rw [and_program_bits, hval, or_program_bit]
      omega
    show macroIdxGetData (indexAt index) i = ⟨.programEntry, number⟩
    rw [← htype, ← hdata]
  | events events =>
    have hsplit : items = items.take i ++ items[i] :: items.drop (i + 1) := by
      rw [List.getElem_cons_drop, List.take_append_drop]
    have hplaced : Placed (items.filterMap recorded) (storageBytes (items.take i)).length
        (toKey items[i].1) events := placed_recorded.mpr ⟨_, _, _, hsplit, hc, rfl, rfl⟩
    have hend := hplaced.end_le
    have hlt := hinv.end_lt
    have hval : (indexAt index i).val.val = (storageBytes (items.take i)).length := by
      rw [hentry, hc, value, Fin.val_ofNat]
      exact Nat.mod_eq_of_lt (by omega)
    have hmacro : ¬ (indexAt index i).IsProgram := by
      rw [MacroIdxEntry.IsProgram, hval]
      omega
    have hdata := macroIdxGetData_not_program hmacro
    have hevents : macroEvents (uploaded mem index storage).mem (storageBytes (items.take i)).length =
        events :=
      (Holds.macroEvents (by simpa [macros] using hplaced.holds hinv.tiled) (by omega)).1
    refine ⟨congrArg MacroIdxEntryData.type hdata, ?_⟩
    show eventsRead _ 65536 (macrosStartPlayback _ (macroIdxGetData (indexAt index) i).data.val) = events
    rw [hdata, hval, eventsRead_start, hevents]

/-- **Whoever wrote the bytes**, the firmware finds what was written and nothing else. -/
theorem Upload.agrees (h : Upload hw assigned items dummy index storage) (mem : Storage) :
    Agrees hw (uploaded mem index storage) assigned := by
  have hinv := h.indexInv
  refine ⟨⟨_, _, h.storeInv mem⟩, ?_, ?_⟩
  · intro a ha buf pressed hperm hbuf
    have hkeys := h.fits.keys a ha
    have hpressed := hkeys.perm hperm
    have hmem : (filled a.1, a.2) ∈ items :=
      h.perm.mem_iff.mpr (List.mem_map.mpr ⟨a, ha, rfl⟩)
    obtain ⟨i, hi, heq⟩ := List.getElem_of_mem hmem
    have hkey : (indexAt index i).key = hpressed.trigger.key := by
      rw [h.entry_getElem hi, heq, ← (filled_inj hpressed hkeys).mpr hperm, ← hpressed.trigger_key]
      exact toKey_keys _
    have hstands := h.stands mem hi
    rw [heq] at hstands
    refine ⟨i, ?_, hstands⟩
    rw [format_filled hpressed hbuf]
    exact (macroIdxLookup_eq_some_iff hinv hpressed.trigger.key_head).mpr ⟨hi, hkey⟩
  · intro buf pressed hpressed hbuf hno
    rw [format_filled hpressed hbuf]
    refine (macroIdxLookup_eq_none_iff hinv hpressed.trigger.key_head).mpr fun i hi hkey => ?_
    obtain ⟨a, ha, htrigger, heq⟩ := h.item_trigger (List.getElem_mem hi)
    rw [h.entry_getElem hi, heq, toKey_keys] at hkey
    refine hno a ha ((filled_inj hpressed htrigger).mp ?_)
    rw [← hpressed.trigger_key, ← htrigger.trigger_key]
    exact congrArg MacroIdxKey.keys hkey.symm

end KeyboardFirmware.Client
