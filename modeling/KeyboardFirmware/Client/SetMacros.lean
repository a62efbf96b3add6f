/-
  `set_macros` of the Ruby client, and the agreement of both clients with the firmware.

  The Ruby client pads the keys of every macro with `0xff` and sorts them, sorts the macros, and
  appends entries and records; the rest of the index are entries of `0xff` with the value 0.  With what
  is known of the bytes in the common format, `clients_agree` needs only that each client writes them.
-/
import KeyboardFirmware.Client.Encode
import KeyboardFirmware.Client.Upload

namespace KeyboardFirmware.Client

open Lib

/-! ## The Ruby client -/

/-- `KeyboardLib::MacroEntry`: the key, and type and data in one. -/
structure MacroEntry where
  key : List LogicalKeycode
  contents : TriggerContents

/-- What `set_macros` raises.  In the first test of the size the message names `macro_data_sz`, which
    is assigned only afterwards. -/
inductive SetMacrosError
  | macroCount (macros indexLen : Nat)
  | undefinedVariable
  | dataSize (macroDataSz storageSz : Nat)
  | negativeArraySize

/-- What a macro adds to the data. -/
def MacroEntry.size (m : MacroEntry) : Nat :=
  match m.contents with
  | .program _ => 0
  | .events data => 2 + data.length

/-- `MacroEntry.macros_size`, and the same sum in `set_macros`. -/
def macrosSize (macros : List MacroEntry) : Nat := macros.foldl (fun a m => a + m.size) 2

/-- The keys padded with `0xff` and sorted. -/
def MacroEntry.padAndSort (keyLen : Nat) (m : MacroEntry) : Except SetMacrosError MacroEntry :=
  if keyLen < m.key.length then .error .negativeArraySize
  else .ok { m with
    key := (m.key ++ List.replicate (keyLen - m.key.length) 0xff).insertionSort (· ≤ ·) }

/-- `a.key <=> b.key` does not put `b` before `a`. -/
def MacroEntry.NotAfter (a b : MacroEntry) : Prop := ¬ b.key < a.key

/-- `index`, `data` and `data_len` of the loop. -/
structure Built where
  index : List Byte
  data : List Byte
  dataLen : Nat

/-- The loop: the entry and the record of a macro. -/
def Built.add (b : Built) (m : MacroEntry) : Built :=
  let b := { b with index := b.index ++ m.key }
  if m.key.getD 0 0 = 0xff then { b with index := b.index ++ shortBytes 0 }
  else
    match m.contents with
    | .program data => { b with index := b.index ++ shortBytes (data ||| 0x8000) }
    | .events data =>
      { index := b.index ++ shortBytes (Fin.ofNat 65536 b.dataLen)
        data := b.data ++ shortBytes (Fin.ofNat 65536 data.length) ++ data
        dataLen := b.dataLen + (data.length + 2) }

/-- The entry that fills up the index. -/
def dummyEntry (keyLen : Nat) : List Byte := List.replicate keyLen 0xff ++ shortBytes 0

/-- `set_macros`: what it writes to the index and to the storage; `sort` is the library's. -/
def setMacros (sort : Sorting MacroEntry.NotAfter) (macros : List MacroEntry)
    (indexSz keyLen storageSz : Nat) : Except SetMacrosError (List Byte × List Byte) := do
  let indexLen := indexSz / (keyLen + 2)
  if macros.length > indexLen then .error (.macroCount macros.length indexLen)
  if macrosSize macros > storageSz then .error .undefinedVariable
  let macroDataSz := macrosSize macros
  if macroDataSz > storageSz then .error (.dataSize macroDataSz storageSz)
  let macros ← macros.mapM (·.padAndSort keyLen)
  let built := (sort.sort macros).foldl Built.add ⟨[], [], 0⟩
  .ok (built.index ++ (List.replicate (indexLen - macros.length) (dummyEntry keyLen)).flatten,
    shortBytes (Fin.ofNat 65536 built.dataLen) ++ built.data)

/-- As an item of the format. -/
def MacroEntry.meaning (m : MacroEntry) : Item := (m.key, m.contents)

theorem built_foldl : ∀ (macros : List MacroEntry) (b : Built), (∀ m ∈ macros, m.key.getD 0 0 ≠ noKey) →
    macros.foldl Built.add b =
      ⟨b.index ++ indexBytes b.dataLen (macros.map (·.meaning)), b.data ++ storageBytes (macros.map (·.meaning)),
        b.dataLen + (storageBytes (macros.map (·.meaning))).length⟩ := by
  intro macros
  induction macros with
  | nil =>
    intro b _
    simp [indexBytes]
  | cons m macros ih =>
    intro b h
    have hm : ¬ m.key.getD 0 0 = 0xff := h m List.mem_cons_self
    have hadd : b.add m = ⟨b.index ++ (m.key ++ shortBytes (value b.dataLen m.contents)),
        b.data ++ body m.contents, b.dataLen + (body m.contents).length⟩ := by
      rw [Built.add]
      simp only [if_neg hm]
      cases m.contents with
      | program data => simp [body, value]
      | events data =>
        simp only [body, value, record_length]
        simp only [record, List.append_assoc]
    rw [List.foldl_cons, ih _ fun m hm => h m (List.mem_cons_of_mem _ hm), hadd]
    simp only [List.map_cons, indexBytes, storageBytes_cons, MacroEntry.meaning, List.append_assoc,
      List.length_append, Nat.add_assoc]

theorem macrosSize_eq (macros : List MacroEntry) :
    macrosSize macros = 2 + (storageBytes (macros.map (·.meaning))).length := by
  have hfold : ∀ (macros : List MacroEntry) (n : Nat), macros.foldl (fun a m => a + m.size) n =
      n + (storageBytes (macros.map (·.meaning))).length := by
    intro macros
    induction macros with
    | nil => exact fun n => rfl
    | cons m macros ih =>
      intro n
      have hsize : m.size = (body m.contents).length := by
        rw [MacroEntry.size]
        cases m.contents with
        | program data => rfl
        | events data => rw [body, record_length, Nat.add_comm]
      rw [List.foldl_cons, ih, List.map_cons, storageBytes_cons, List.length_append, hsize, Nat.add_assoc]
      rfl
  exact hfold macros 2

/-- Padding first and sorting then is filling up the sorted keys: nothing is above `NO_KEY`. -/
theorem insertionSort_pad {keys : List LogicalKeycode} (m : Nat) :
    (keys ++ List.replicate m noKey).insertionSort (· ≤ ·) =
      keys.insertionSort (· ≤ ·) ++ List.replicate m noKey := by
  refine List.Perm.eq_of_pairwise (fun _ _ _ _ => le_antisymm) (List.pairwise_insertionSort _ _) ?_
    ((List.perm_insertionSort _ _).trans ((List.perm_insertionSort _ keys).symm.append_right _))
  refine List.pairwise_append.mpr ⟨List.pairwise_insertionSort _ keys, ?_, ?_⟩
  · exact List.pairwise_replicate.mpr (Or.inr (le_refl noKey))
  · intro a _ b hb
    rw [List.eq_of_mem_replicate hb]
    exact Fin.le_last a

variable {hw : Hardware}

theorem padAndSort_filled {m : MacroEntry} (h : IsTrigger m.key) :
    m.padAndSort macroMaxKeys = .ok { m with key := filled m.key } := by
  rw [MacroEntry.padAndSort, if_neg (Nat.not_lt.mpr h.length_le)]
  exact congrArg (fun key => Except.ok (MacroEntry.mk key m.contents)) (insertionSort_pad _)

theorem mapM_padAndSort : ∀ {macros : List MacroEntry}, (∀ m ∈ macros, IsTrigger m.key) →
    macros.mapM (·.padAndSort macroMaxKeys) =
      .ok (macros.map fun m => { m with key := filled m.key }) := by
  intro macros
  induction macros with
  | nil => exact fun _ => rfl
  | cons m macros ih =>
    intro h
    rw [List.mapM_cons, padAndSort_filled (h m List.mem_cons_self),
      ih fun m hm => h m (List.mem_cons_of_mem _ hm)]
    rfl

/-- **`set_macros` writes the common format.** -/
theorem setMacros_upload (sort : Sorting MacroEntry.NotAfter) {macros : List MacroEntry}
    (h : Fits hw (macros.map (·.meaning))) :
    ∃ index data, setMacros sort macros (hw.macroIndexCount * entrySize) macroMaxKeys hw.macrosSize =
        .ok (index, data) ∧
      ∃ items, Upload hw (macros.map (·.meaning)) items (dummyEntry macroMaxKeys) index data := by
  have hkeys : ∀ m ∈ macros, IsTrigger m.key := fun m hm =>
    h.keys m.meaning (List.mem_map_of_mem hm)
  have hcount := h.count
  rw [List.length_map] at hcount
  have hlen : hw.macroIndexCount * entrySize / (macroMaxKeys + 2) = hw.macroIndexCount :=
    Nat.mul_div_cancel _ (by decide)
  have hsize : macrosSize macros ≤ hw.macrosSize := by
    rw [macrosSize_eq]
    exact h.size
  obtain ⟨sorted, hsorted⟩ : ∃ sorted, sort.sort (macros.map fun m => { m with key := filled m.key }) =
      sorted := ⟨_, rfl⟩
  have hperm : sorted.Perm (macros.map fun m => { m with key := filled m.key }) :=
    hsorted ▸ sort.perm _
  have hhead : ∀ m ∈ sorted, m.key.getD 0 0 ≠ noKey := by
    intro m hm
    obtain ⟨m', hm', rfl⟩ := List.mem_map.mp (hperm.mem_iff.mp hm)
    have hhead := (hkeys m' hm').trigger.key_head
    rwa [MacroIdxKey.head, IsTrigger.trigger_key] at hhead
  have hrun : setMacros sort macros (hw.macroIndexCount * entrySize) macroMaxKeys hw.macrosSize =
      .ok (indexBytes 0 (sorted.map (·.meaning)) ++
          (List.replicate (hw.macroIndexCount - macros.length) (dummyEntry macroMaxKeys)).flatten,
        shortBytes (Fin.ofNat 65536 (storageBytes (sorted.map (·.meaning))).length) ++
          storageBytes (sorted.map (·.meaning))) := by
    rw [setMacros]
    simp only [hlen, if_neg (Nat.not_lt.mpr hcount), if_neg (Nat.not_lt.mpr hsize),
      mapM_padAndSort hkeys]
    show Except.ok (((sort.sort _).foldl Built.add ⟨[], [], 0⟩).index ++ _,
      shortBytes (Fin.ofNat 65536 ((sort.sort _).foldl Built.add ⟨[], [], 0⟩).dataLen) ++
        ((sort.sort _).foldl Built.add ⟨[], [], 0⟩).data) = _
    rw [hsorted, built_foldl sorted _ hhead, List.length_map]
    simp only [List.nil_append, Nat.zero_add]
  have hlength : (sorted.map (·.meaning)).length = macros.length := by
    rw [List.length_map, hperm.length_eq, List.length_map]
  refine ⟨_, _, hrun, sorted.map (·.meaning), h, ?_, ?_, rfl, rfl, by rw [hlength], rfl⟩
  · have hmap := hperm.map (·.meaning)
    rwa [List.map_map] at hmap ⊢
  · rw [List.pairwise_map, ← hsorted]
    exact (sort.sorted _).imp not_lt.mp

/-! ## The Qt client -/

theorem ofTrigger_filled {t : Trigger} (h : t.Formed macroMaxKeys) :
    (EncodedTrigger.ofTrigger t).item = (filled t.triggerKeys, t.contents) := by
  have hsorted : t.triggerKeys.insertionSort (· ≤ ·) = t.triggerKeys :=
    List.Pairwise.insertionSort_eq (h.sorted.imp le_of_lt)
  rw [filled, hsorted, ← h.perTrigger]
  rfl

/-- A list that fits is accepted. -/
theorem encodeTriggers_accepts (qSort : Sorting EncodedTrigger.NotAfter) {triggers : List Trigger}
    (h : Fits hw (triggers.map (·.meaning))) :
    ∃ index storage, encodeTriggers qSort triggers macroMaxKeys (hw.macroIndexCount * entrySize)
      hw.macrosSize = .ok (index, storage) := by
  have hcount := h.count
  rw [List.length_map] at hcount
  have hindex : ¬ triggers.length * (macroMaxKeys + 2) > hw.macroIndexCount * entrySize :=
    Nat.not_lt.mpr (Nat.mul_le_mul_right entrySize hcount)
  have hall : triggers.filter (·.triggerKeys ≠ []) = triggers :=
    List.filter_eq_self.mpr fun t ht => decide_eq_true (h.keys t.meaning (List.mem_map_of_mem ht)).nonempty
  have hbodies : storageBytes ((encoded triggers).map (·.item)) =
      storageBytes (triggers.map (·.meaning)) := by
    rw [encoded, hall, List.map_map, storageBytes, storageBytes, List.flatMap_map, List.flatMap_map]
    rfl
  have hsize : ¬ (encoded triggers).foldl (fun n et => n + et.storageRequired) 2 > hw.macrosSize := by
    rw [storageRequired_foldl, hbodies]
    exact Nat.not_lt.mpr h.size
  have hstorage : ¬ (hw.macrosSize = 0 ∧
      (encoded triggers).foldl (fun n et => n + et.storageRequired) 2 = 2) := fun hno => by
    have := hw.size_ge
    omega
  rw [encodeTriggers]
  simp only [if_neg hindex, if_neg hstorage, if_neg hsize]
  exact ⟨_, _, rfl⟩

/-- **`encodeTriggers` writes the common format.** -/
theorem encodeTriggers_upload (qSort : Sorting EncodedTrigger.NotAfter) {triggers : List Trigger}
    (hformed : ∀ t ∈ triggers, t.Formed macroMaxKeys) (h : Fits hw (triggers.map (·.meaning))) :
    ∃ index storage, encodeTriggers qSort triggers macroMaxKeys (hw.macroIndexCount * entrySize)
        hw.macrosSize = .ok (index, storage) ∧
      ∃ items, Upload hw (triggers.map (·.meaning)) items (List.replicate entrySize 0xff) index
        storage := by
  obtain ⟨index, storage, hrun⟩ := encodeTriggers_accepts qSort h
  have hsize := hw.size_le
  have hwritten := encodeTriggers_ok (fun t ht _ => (hformed t ht).fits) (by omega) hrun
  obtain ⟨items, hitems⟩ : ∃ items, (qSort.sort (encoded triggers)).map (·.item) = items := ⟨_, rfl⟩
  rw [hitems] at hwritten
  have hall : triggers.filter (·.triggerKeys ≠ []) = triggers :=
    List.filter_eq_self.mpr fun t ht => decide_eq_true (h.keys t.meaning (List.mem_map_of_mem ht)).nonempty
  have hencoded : (encoded triggers).map (·.item) =
      (triggers.map (·.meaning)).map fun a => (filled a.1, a.2) := by
    rw [encoded, hall, List.map_map, List.map_map]
    exact List.map_congr_left fun t ht => ofTrigger_filled (hformed t ht)
  refine ⟨index, storage, hrun, items, h, ?_, ?_, List.length_replicate, rfl, ?_, ?_⟩
  · rw [← hitems, ← hencoded]
    exact (qSort.perm _).map _
  · rw [← hitems, List.pairwise_map]
    exact (qSort.sorted _).imp not_lt.mp
  · have hrest : hw.macroIndexCount * entrySize - items.length * (macroMaxKeys + 2) =
        (hw.macroIndexCount - items.length) * entrySize := (Nat.sub_mul ..).symm
    rw [hwritten.index_eq, hrest, List.flatten_replicate_replicate]
  · rcases hwritten.storage_eq with ⟨-, hzero, -⟩ | ⟨hstorage, -⟩
    · have := hw.size_ge
      omega
    · exact hstorage

/-! ## The agreement -/

/-- **The clients and the firmware agree on triggers**: every list that fits the device is written by
    either client so that the store of the firmware is in order, the keys of each trigger, in any order,
    find its entry, which plays its events or names its program, and no other keys are found. -/
theorem clients_agree (hw : Hardware) (mem : Storage) :
    (∀ (qSort : Sorting EncodedTrigger.NotAfter) (triggers : List Trigger),
      (∀ t ∈ triggers, t.Formed macroMaxKeys) → Fits hw (triggers.map (·.meaning)) →
      ∃ index storage, encodeTriggers qSort triggers macroMaxKeys (hw.macroIndexCount * entrySize)
          hw.macrosSize = .ok (index, storage) ∧
        Agrees hw (uploaded mem index storage) (triggers.map (·.meaning))) ∧
    ∀ (sort : Sorting MacroEntry.NotAfter) (macros : List MacroEntry),
      Fits hw (macros.map (·.meaning)) →
      ∃ index data, setMacros sort macros (hw.macroIndexCount * entrySize) macroMaxKeys hw.macrosSize =
          .ok (index, data) ∧
        Agrees hw (uploaded mem index data) (macros.map (·.meaning)) := by
  constructor
  · intro qSort triggers hformed hfits
    obtain ⟨index, storage, hrun, items, hupload⟩ := encodeTriggers_upload qSort hformed hfits
    exact ⟨index, storage, hrun, hupload.agrees mem⟩
  · intro sort macros hfits
    obtain ⟨index, data, hrun, items, hupload⟩ := setMacros_upload sort hfits
    exact ⟨index, data, hrun, hupload.agrees mem⟩

/-- Two macros and a program on a Kinesis. -/
theorem clients_agree_kinesis :
    ∃ index storage, encodeTriggers insertionSort
        [⟨4, [7], .macroTrigger, [5, 5], 0⟩, ⟨4, [4, 9], .programTrigger, [], 3⟩,
          ⟨4, [7, 8], .macroTrigger, [6], 0⟩] macroMaxKeys (kinesis.macroIndexCount * entrySize)
        kinesis.macrosSize = .ok (index, storage) ∧
      Agrees kinesis (uploaded (fun _ => 0) index storage)
        [([7], .events [5, 5]), ([4, 9], .program 3), ([7, 8], .events [6])] :=
  (clients_agree kinesis fun _ => 0).1 insertionSort _ (by decide)
    ⟨by decide, by decide, by decide, by decide, by simp [Trigger.meaning, Trigger.contents]⟩

end KeyboardFirmware.Client
