/-
  `readTriggers`: what the Qt client makes of the bytes of a device or a file.

  The reader walks over the index entry by entry until it meets the filler `0xff`, and follows the
  offset of each macro.  It looks at a byte of the index before it compares the position with the
  length, at the value of an entry without comparing at all, and at the length of a macro wherever the
  offset says.  So it stays inside the two arrays when the entries it meets do and a filler comes
  before the end (`readTriggers_isSome`); a full index has no filler.
-/
import KeyboardFirmware.Client.Encode
import Mathlib.Data.List.TakeWhile

namespace KeyboardFirmware.Client

open Lib

/-! ## Reading -/

/-- The inner loop of `readTriggers` at position `off`, `left` keys being left; `none` is a read
    outside the array. -/
def readKeys (index : List Byte) : Nat → Nat → List LogicalKeycode → Option (List LogicalKeycode)
  | 0, _, triggerKeys => some triggerKeys
  | left + 1, off, triggerKeys => do
    let keyValue ← index[off]?
    if keyValue = noKey then some triggerKeys
    else readKeys index left (off + 1) (triggerKeys.orderedInsert (· ≤ ·) keyValue)

/-- The body of the loop: the trigger at `idxOff`. -/
def readTrigger (index data : List Byte) (maxKeys idxOff : Nat) : Option Trigger := do
  let triggerKeys ← readKeys index maxKeys idxOff []
  let t := { Trigger.new maxKeys with triggerKeys := triggerKeys }
  let dataOffset ← readShort index (idxOff + maxKeys)
  if dataOffset &&& 0x8000 ≠ 0 then
    some { t with type := .programTrigger, programContents := dataOffset &&& 0x7fff }
  else
    let offset := (dataOffset &&& 0x7fff).val
    let macroLength ← readShort data offset
    some { t with
      type := .macroTrigger
      macroContents := (data.drop (offset + 2)).take macroLength }

/-- The loop of `readTriggers` at `idxOff`.  `index.at(idxOff)` comes before `idxOff < index.length()`. -/
def readFrom (index data : List Byte) (maxKeys idxOff : Nat) : Option (List Trigger) :=
  match index[idxOff]? with
  | none => none
  | some first =>
    if _h : first ≠ 0xff ∧ idxOff < index.length then do
      let t ← readTrigger index data maxKeys idxOff
      let rest ← readFrom index data maxKeys (idxOff + maxKeys + 2)
      some (t :: rest)
    else some []
termination_by index.length - idxOff

/-- `Trigger::readTriggers`: the end offset in front of the data is skipped. -/
def readTriggers (index rawData : List Byte) (maxKeys : Nat) : Option (List Trigger) :=
  readFrom index (rawData.drop 2) maxKeys 0

variable {index data : List Byte} {k idxOff : Nat}

theorem readFrom_filler (h : index[idxOff]? = some 0xff) : readFrom index data k idxOff = some [] := by
  rw [readFrom]
  simp [h]

theorem readFrom_outside (h : index[idxOff]? = none) : readFrom index data k idxOff = none := by
  rw [readFrom]
  simp [h]

theorem readFrom_entry {first : Byte} (h : index[idxOff]? = some first) (hne : first ≠ 0xff) :
    readFrom index data k idxOff = (do
      let t ← readTrigger index data k idxOff
      let rest ← readFrom index data k (idxOff + k + 2)
      some (t :: rest)) := by
  obtain ⟨hlt, rfl⟩ := List.getElem?_eq_some_iff.mp h
  rw [readFrom]
  simp [hne, hlt]

/-! ## What is read -/

/-- The keys of a filled-up key. -/
def keysOf (key : List LogicalKeycode) : List LogicalKeycode := key.takeWhile (· ≠ noKey)

/-- The reader puts the keys of an entry in order and keeps all of them. -/
theorem readKeys_spec : ∀ (left off : Nat) (read keys : List LogicalKeycode),
    read.Pairwise (· ≤ ·) → readKeys index left off read = some keys →
      keys.Pairwise (· ≤ ·) ∧ keys.Perm (keysOf ((index.drop off).take left) ++ read) := by
  intro left
  induction left with
  | zero =>
    intro off read keys hread h
    obtain rfl := Option.some.inj h
    rw [List.take_zero]
    exact ⟨hread, List.Perm.refl _⟩
  | succ left ih =>
    intro off read keys hread h
    obtain ⟨key, hkey, h⟩ := Option.bind_eq_some_iff.mp h
    obtain ⟨hlt, rfl⟩ := List.getElem?_eq_some_iff.mp hkey
    rw [List.drop_eq_getElem_cons hlt, List.take_succ_cons]
    split at h
    next hfiller =>
      obtain rfl := Option.some.inj h
      refine ⟨hread, ?_⟩
      rw [keysOf, List.takeWhile_cons_of_neg (by simpa using hfiller)]
      exact List.Perm.refl _
    next hne =>
      obtain ⟨hsorted, hperm⟩ := ih _ _ _ (List.Pairwise.orderedInsert _ _ hread) h
      refine ⟨hsorted, hperm.trans ?_⟩
      rw [keysOf, keysOf, List.takeWhile_cons_of_pos (by simpa using hne)]
      exact ((List.perm_orderedInsert _ _ _).append_left _).trans List.perm_middle

theorem readTrigger_spec {t : Trigger} (h : readTrigger index data k idxOff = some t) :
    t.keysPerTrigger = k ∧ readKeys index k idxOff [] = some t.triggerKeys := by
  obtain ⟨keys, hkeys, h⟩ := Option.bind_eq_some_iff.mp h
  obtain ⟨value, -, h⟩ := Option.bind_eq_some_iff.mp h
  split at h
  · obtain rfl := Option.some.inj h
    exact ⟨rfl, hkeys⟩
  · obtain ⟨length, -, h⟩ := Option.bind_eq_some_iff.mp h
    obtain rfl := Option.some.inj h
    exact ⟨rfl, hkeys⟩

/-- What the loop has read: nothing, or a trigger and what follows. -/
theorem readFrom_cases {ts : List Trigger} (h : readFrom index data k idxOff = some ts) :
    ts = [] ∨ ∃ t rest, ts = t :: rest ∧ readTrigger index data k idxOff = some t ∧
      readFrom index data k (idxOff + k + 2) = some rest := by
  cases hfirst : index[idxOff]? with
  | none =>
    rw [readFrom_outside hfirst] at h
    cases h
  | some first =>
    by_cases hfiller : first = 0xff
    · rw [hfiller] at hfirst
      rw [readFrom_filler hfirst] at h
      exact .inl (Option.some.inj h).symm
    · rw [readFrom_entry hfirst hfiller] at h
      obtain ⟨t, ht, h⟩ := Option.bind_eq_some_iff.mp h
      obtain ⟨rest, hrest, h⟩ := Option.bind_eq_some_iff.mp h
      exact .inr ⟨t, rest, (Option.some.inj h).symm, ht, hrest⟩

/-- Each trigger was read at its place. -/
theorem readTrigger_of_readFrom {t : Trigger} : ∀ (i idxOff : Nat) (ts : List Trigger),
    readFrom index data k idxOff = some ts → ts[i]? = some t →
      readTrigger index data k (idxOff + i * (k + 2)) = some t := by
  intro i
  induction i with
  | zero =>
    intro idxOff ts hread hget
    rcases readFrom_cases hread with rfl | ⟨first, rest, rfl, hfirst, -⟩
    · cases hget
    · obtain rfl := Option.some.inj hget
      rwa [Nat.zero_mul]
  | succ i ih =>
    intro idxOff ts hread hget
    rcases readFrom_cases hread with rfl | ⟨first, rest, rfl, -, hrest⟩
    · cases hget
    · have hnext := ih _ rest hrest hget
      have hoff : idxOff + k + 2 + i * (k + 2) = idxOff + (i + 1) * (k + 2) := by
        rw [Nat.succ_mul]
        omega
      rwa [hoff] at hnext

/-- The keys that are read are in order, real ones and not too many. -/
theorem readTriggers_fits {rawData : List Byte} {ts : List Trigger}
    (h : readTriggers index rawData k = some ts) : ∀ t ∈ ts, t.Fits k := by
  intro t ht
  obtain ⟨i, hi⟩ := List.mem_iff_getElem?.mp ht
  obtain ⟨hk, hkeys⟩ := readTrigger_spec (readTrigger_of_readFrom i 0 ts h hi)
  obtain ⟨hsorted, hperm⟩ := readKeys_spec _ _ _ _ List.Pairwise.nil hkeys
  rw [List.append_nil] at hperm
  refine ⟨hk, hsorted, fun hmem => ?_, ?_⟩
  · have hreal := List.mem_takeWhile_imp (hperm.mem_iff.mp hmem)
    simp at hreal
  · rw [hperm.length_eq]
    exact (List.takeWhile_prefix _).length_le.trans (List.length_take_le _ _)

/-! ## Where it stays inside -/

/-- The entry at `idxOff` can be read: it is complete, and if it is a macro's the length of the macro
    is in the data. -/
def EntryInside (index data : List Byte) (maxKeys idxOff : Nat) : Prop :=
  idxOff + maxKeys + 2 ≤ index.length ∧
    ∀ v, readShort index (idxOff + maxKeys) = some v → v.val < 0x8000 → v.val + 2 ≤ data.length

/-- The entries from `idxOff` on can be read, up to a filler. -/
def EndsInFiller (index data : List Byte) (maxKeys idxOff : Nat) : Prop :=
  ∃ n, (∀ i < n, index[idxOff + i * (maxKeys + 2)]? ≠ some 0xff ∧
      EntryInside index data maxKeys (idxOff + i * (maxKeys + 2))) ∧
    index[idxOff + n * (maxKeys + 2)]? = some 0xff

theorem readKeys_isSome : ∀ (left off : Nat) (triggerKeys : List LogicalKeycode),
    off + left ≤ index.length → (readKeys index left off triggerKeys).isSome := by
  intro left
  induction left with
  | zero => exact fun _ _ _ => rfl
  | succ left ih =>
    intro off triggerKeys h
    rw [readKeys, List.getElem?_eq_getElem (show off < index.length by omega)]
    show (if index[off] = noKey then _ else _ : Option _).isSome
    split
    · rfl
    · exact ih _ _ (by omega)

theorem readTrigger_isSome : (readTrigger index data k idxOff).isSome ↔ EntryInside index data k idxOff := by
  constructor
  · intro h
    obtain ⟨t, ht⟩ := Option.isSome_iff_exists.mp h
    obtain ⟨keys, -, ht⟩ := Option.bind_eq_some_iff.mp ht
    obtain ⟨v, hv, ht⟩ := Option.bind_eq_some_iff.mp ht
    refine ⟨readShort_isSome.mp (Option.isSome_of_eq_some hv), fun w hw hlt => ?_⟩
    obtain rfl : v = w := Option.some.inj (hv.symm.trans hw)
    have hnot : ¬ (v &&& 0x8000 ≠ 0) := fun htop => by
      have := (topBit_ne_zero_iff v).mp htop
      omega
    rw [if_neg hnot] at ht
    obtain ⟨len, hlen, -⟩ := Option.bind_eq_some_iff.mp ht
    have hinside := readShort_isSome.mp (Option.isSome_of_eq_some hlen)
    rwa [and_program_bits, Nat.mod_eq_of_lt hlt] at hinside
  · rintro ⟨hlen, hdata⟩
    obtain ⟨keys, hkeys⟩ := Option.isSome_iff_exists.mp
      (readKeys_isSome k idxOff [] (show idxOff + k ≤ index.length by omega))
    obtain ⟨v, hv⟩ := Option.isSome_iff_exists.mp (readShort_isSome.mpr hlen)
    rw [readTrigger, hkeys, hv]
    show (if v &&& 0x8000 ≠ 0 then _ else _ : Option Trigger).isSome
    split
    · rfl
    next hnot =>
    have hlt : v.val < 0x8000 := Nat.lt_of_not_le fun h => hnot ((topBit_ne_zero_iff v).mpr h)
    have hinside := readShort_isSome.mpr (hdata v hv hlt)
    rw [← Nat.mod_eq_of_lt hlt, ← and_program_bits] at hinside
    obtain ⟨len, hlen⟩ := Option.isSome_iff_exists.mp hinside
    rw [hlen]
    rfl

/-- **The reader stays inside** exactly when each entry it meets does and it meets a filler. -/
theorem readFrom_isSome (index data : List Byte) (k : Nat) : ∀ idxOff,
    (readFrom index data k idxOff).isSome ↔ EndsInFiller index data k idxOff := by
  intro idxOff
  induction hm : index.length - idxOff using Nat.strong_induction_on generalizing idxOff with
  | _ m ih =>
    subst hm
    cases hfirst : index[idxOff]? with
    | none =>
      rw [readFrom_outside hfirst]
      refine iff_of_false (by simp) ?_
      rintro ⟨n, hall, hend⟩
      cases n with
      | zero => simp [hfirst] at hend
      | succ n =>
        have hlen := (hall 0 (Nat.succ_pos n)).2.1
        have := List.getElem?_eq_none_iff.mp hfirst
        omega
    | some first =>
      obtain ⟨hlt, -⟩ := List.getElem?_eq_some_iff.mp hfirst
      by_cases hfiller : first = 0xff
      · subst hfiller
        rw [readFrom_filler hfirst]
        exact iff_of_true rfl ⟨0, fun i hi => absurd hi (Nat.not_lt_zero i), by simpa using hfirst⟩
      · have hrest := ih (index.length - (idxOff + k + 2)) (by omega) (idxOff + k + 2) rfl
        have hnext : ∀ i, idxOff + (i + 1) * (k + 2) = idxOff + k + 2 + i * (k + 2) := fun i => by
          rw [Nat.succ_mul]
          omega
        have hboth : (readFrom index data k idxOff).isSome ↔
            (readTrigger index data k idxOff).isSome ∧ (readFrom index data k (idxOff + k + 2)).isSome := by
          rw [readFrom_entry hfirst hfiller]
          cases readTrigger index data k idxOff with
          | none => simp
          | some t => cases readFrom index data k (idxOff + k + 2) <;> simp
        rw [hboth, readTrigger_isSome, hrest]
        constructor
        · rintro ⟨hentry, n, hall, hend⟩
          refine ⟨n + 1, fun i hi => ?_, by rwa [hnext]⟩
          cases i with
          | zero => simpa [hfirst] using ⟨hfiller, hentry⟩
          | succ i =>
            rw [hnext]
            exact hall i (Nat.lt_of_succ_lt_succ hi)
        · rintro ⟨n, hall, hend⟩
          cases n with
          | zero => simp [hfirst, hfiller] at hend
          | succ n =>
            refine ⟨by simpa using (hall 0 (Nat.succ_pos n)).2, n, fun i hi => ?_, by rwa [← hnext]⟩
            rw [← hnext]
            exact hall (i + 1) (Nat.succ_lt_succ hi)

/-! ## What is read of what was written -/

/-- A key as `EncodedTrigger` fills it up. -/
def Padded (k : Nat) (key : List LogicalKeycode) : Prop :=
  ∃ keys : List LogicalKeycode, keys ≠ [] ∧ keys.Pairwise (· ≤ ·) ∧ noKey ∉ keys ∧
    key = keys ++ List.replicate (k - keys.length) noKey ∧ keys.length ≤ k

theorem keysOf_append_noKey {keys : List LogicalKeycode} (h : noKey ∉ keys) (m : Nat) :
    keysOf (keys ++ List.replicate m noKey) = keys := by
  have hall : ∀ key ∈ keys, decide (key ≠ noKey) = true := fun key hkey =>
    decide_eq_true fun heq => h (heq ▸ hkey)
  rw [keysOf, List.takeWhile_append_of_pos hall]
  cases m <;> simp [List.replicate_succ]

/-- Inserting a key that is no smaller than the others makes the list as if it were put last. -/
theorem orderedInsert_last {keys : List LogicalKeycode} {key : LogicalKeycode}
    (h : (keys ++ [key]).Pairwise (· ≤ ·)) : keys.orderedInsert (· ≤ ·) key = keys ++ [key] := by
  have hkeys := (List.pairwise_append.mp h).1
  refine List.Perm.eq_of_pairwise' (List.Pairwise.orderedInsert key keys hkeys) h ?_
  exact (List.perm_orderedInsert _ _ _).trans (List.perm_append_singleton key keys).symm

/-- The inner loop reads the keys up to the filler. -/
theorem readKeys_padded (post : List Byte) (m : Nat) : ∀ (keys pre read : List LogicalKeycode),
    (read ++ keys).Pairwise (· ≤ ·) → noKey ∉ keys →
    readKeys (pre ++ (keys ++ List.replicate m noKey ++ post)) (keys.length + m) pre.length read =
      some (read ++ keys) := by
  intro keys
  induction keys with
  | nil =>
    intro pre read _ _
    rw [List.append_nil]
    cases m with
    | zero => rw [List.length_nil, Nat.zero_add, readKeys]
    | succ m =>
      rw [List.length_nil, Nat.zero_add, readKeys, List.getElem?_append_right (Nat.le_refl _)]
      simp [List.replicate_succ]
  | cons key keys ih =>
    intro pre read hsorted hno
    have hlast : (read ++ [key]).Pairwise (· ≤ ·) :=
      hsorted.sublist ((List.Sublist.refl read).append (List.singleton_sublist.mpr List.mem_cons_self))
    have hne : key ≠ noKey := fun heq => hno (heq ▸ List.mem_cons_self)
    have hread := ih (pre ++ [key]) (read ++ [key]) (by simpa using hsorted)
      fun h => hno (List.mem_cons_of_mem _ h)
    rw [List.length_append, List.length_singleton] at hread
    rw [List.length_cons, Nat.add_right_comm, readKeys, List.getElem?_append_right (Nat.le_refl _)]
    simp only [Nat.sub_self, List.cons_append, List.getElem?_cons_zero, Option.bind_eq_bind,
      Option.bind_some, if_neg hne, orderedInsert_last hlast]
    simpa using hread

/-- What the reader takes contents for, the record of a macro starting at `offset`: the top bit of
    the value decides the kind. -/
def readContents (offset : Nat) : TriggerContents → TriggerContents
  | .program number => .program (number &&& 0x7fff)
  | .events events =>
    if offset < 0x8000 then .events events else .program (Fin.ofNat 65536 offset &&& 0x7fff)

/-- What the reader makes of the items: their keys, and what it takes their contents for. -/
def readBack : Nat → List Item → List Item
  | _, [] => []
  | offset, item :: items =>
    (keysOf item.1, readContents offset item.2) :: readBack (offset + (body item.2).length) items

/-- The entry and the record of an item are read. -/
theorem readTrigger_item {item : Item} {pre post before after : List Byte}
    (hkey : Padded k item.1) (hsmall : before.length + (body item.2).length < 65536) :
    ∃ t, readTrigger (pre ++ (item.1 ++ shortBytes (value before.length item.2) ++ post))
        (before ++ (body item.2 ++ after)) k pre.length = some t ∧
      t.keysPerTrigger = k ∧
      t.meaning = (keysOf item.1, readContents before.length item.2) := by
  obtain ⟨key, contents⟩ := item
  obtain ⟨keys, -, hsorted, hno, rfl, hle⟩ := hkey
  have hlen : keys.length + (k - keys.length) = k := Nat.add_sub_cancel' hle
  obtain ⟨val, hval⟩ : ∃ val, value before.length contents = val := ⟨_, rfl⟩
  obtain ⟨bytes, hbytes⟩ : ∃ bytes, pre ++ (keys ++ List.replicate (k - keys.length) noKey ++
      shortBytes val ++ post) = bytes := ⟨_, rfl⟩
  have hkeys : readKeys bytes k pre.length [] = some keys := by
    have hread := readKeys_padded (shortBytes val ++ post) (k - keys.length) keys pre [] hsorted hno
    rwa [hlen, ← List.append_assoc _ (shortBytes val), hbytes] at hread
  have hvalue : readShort bytes (pre.length + k) = some val := by
    have hread := readShort_shortBytes (pre ++ (keys ++ List.replicate (k - keys.length) noKey)) post val
    rwa [List.length_append, List.length_append, List.length_replicate, hlen, List.append_assoc pre,
      List.append_assoc pre, hbytes] at hread
  rw [hval, hbytes]
  simp only [readTrigger, hkeys, hvalue, Option.bind_eq_bind, Option.bind_some,
    keysOf_append_noKey hno, topBit_ne_zero_iff]
  by_cases hprogram : 0x8000 ≤ val.val
  · rw [if_pos hprogram]
    refine ⟨_, rfl, rfl, ?_⟩
    cases contents with
    | program number =>
      have hbits : val &&& 0x7fff = number &&& 0x7fff := by
        apply Fin.ext
        rw [and_program_bits, and_program_bits, ← hval, value, or_program_bit]
        omega
      exact congrArg (fun n => (keys, TriggerContents.program n)) hbits
    | events events =>
      rw [← hval, value, Fin.val_ofNat, Nat.mod_eq_of_lt (by omega)] at hprogram
      rw [readContents, if_neg (by omega), ← hval]
      rfl
  · rw [if_neg hprogram]
    cases contents with
    | program number =>
      rw [← hval, value, or_program_bit] at hprogram
      omega
    | events events =>
      have hmod : before.length % 65536 = before.length := Nat.mod_eq_of_lt (by omega)
      have hoffset : (val &&& 0x7fff).val = before.length := by
        rw [and_program_bits, Nat.mod_eq_of_lt (Nat.lt_of_not_le hprogram), ← hval, value, Fin.val_ofNat,
          hmod]
      rw [← hval, value, Fin.val_ofNat, hmod] at hprogram
      rw [body, record_length] at hsmall
      have hlength : readShort (before ++ (record events ++ after)) before.length =
          some (Fin.ofNat 65536 events.length) := by
        rw [record, List.append_assoc (shortBytes _), ← List.append_assoc before]
        exact readShort_shortBytes before (events ++ after) (Fin.ofNat 65536 events.length)
      have hbody : (before ++ (record events ++ after)).drop (before.length + 2) = events ++ after := by
        rw [← List.drop_drop, List.drop_left, record, List.append_assoc (shortBytes _)]
        rfl
      have htake : (events ++ after).take (events.length % 65536) = events := by
        rw [Nat.mod_eq_of_lt (by omega)]
        exact List.take_left
      simp only [hoffset, body, hlength, Option.bind_some, hbody, Fin.val_ofNat, htake]
      refine ⟨_, rfl, rfl, ?_⟩
      rw [readContents, if_pos (Nat.lt_of_not_le hprogram)]
      rfl

/-- **The loop reads every item**, and goes on behind them. -/
theorem readFrom_items (post after : List Byte) : ∀ (items : List Item) (pre before : List Byte),
    (∀ item ∈ items, Padded k item.1) → before.length + (storageBytes items).length < 65536 →
    ∃ ts : List Trigger, (∀ t ∈ ts, t.keysPerTrigger = k) ∧
      ts.map (·.meaning) = readBack before.length items ∧
      readFrom (pre ++ (indexBytes before.length items ++ post))
          (before ++ (storageBytes items ++ after)) k pre.length =
        (readFrom (pre ++ (indexBytes before.length items ++ post))
          (before ++ (storageBytes items ++ after)) k (pre.length + items.length * (k + 2))).map
            (ts ++ ·) := by
  intro items
  induction items with
  | nil =>
    intro pre before _ _
    refine ⟨[], fun t ht => absurd ht List.not_mem_nil, rfl, ?_⟩
    simp
  | cons item items ih =>
    intro pre before hpadded hsmall
    have hitem := hpadded item List.mem_cons_self
    rw [storageBytes_cons, List.length_append] at hsmall
    obtain ⟨t, ht, htk, htm⟩ := @readTrigger_item k item pre
      (indexBytes (before.length + (body item.2).length) items ++ post) before
      (storageBytes items ++ after) hitem (by omega)
    have hentry : (item.1 ++ shortBytes (value before.length item.2)).length = k + 2 := by
      obtain ⟨keys, -, -, -, heq, hle⟩ := hitem
      rw [heq, List.length_append, List.length_append, List.length_replicate, shortBytes_length]
      omega
    obtain ⟨ts, hts, htsm, hrest⟩ := ih (pre ++ (item.1 ++ shortBytes (value before.length item.2)))
      (before ++ body item.2) (fun i hi => hpadded i (List.mem_cons_of_mem _ hi))
      (by rw [List.length_append]; omega)
    obtain ⟨bytes, hbytes⟩ : ∃ bytes, pre ++ (indexBytes before.length (item :: items) ++ post) = bytes :=
      ⟨_, rfl⟩
    obtain ⟨data, hdata⟩ : ∃ data, before ++ (storageBytes (item :: items) ++ after) = data := ⟨_, rfl⟩
    have hentryBytes : pre ++ (item.1 ++ shortBytes (value before.length item.2) ++
        (indexBytes (before.length + (body item.2).length) items ++ post)) = bytes := by
      rw [← hbytes, indexBytes]
      simp only [List.append_assoc]
    have hrecord : before ++ (body item.2 ++ (storageBytes items ++ after)) = data := by
      rw [← hdata, storageBytes_cons]
      simp only [List.append_assoc]
    have hfirst : ∃ first, bytes[pre.length]? = some first ∧ first ≠ 0xff := by
      obtain ⟨keys, hne, -, hno, heq, -⟩ := hitem
      obtain ⟨key, keys, rfl⟩ := List.exists_cons_of_ne_nil hne
      refine ⟨key, ?_, fun h => hno (h ▸ List.mem_cons_self)⟩
      rw [← hentryBytes, heq, List.getElem?_append_right (Nat.le_refl _), Nat.sub_self]
      rfl
    obtain ⟨first, hfirst, hne⟩ := hfirst
    rw [hentryBytes, hrecord] at ht
    have hpre : (pre ++ (item.1 ++ shortBytes (value before.length item.2))).length =
        pre.length + k + 2 := by
      rw [List.length_append, hentry]
      rfl
    rw [hpre, List.append_assoc pre, List.append_assoc before, @List.length_append _ before,
      hentryBytes, hrecord] at hrest
    refine ⟨t :: ts, ?_, ?_, ?_⟩
    · exact List.forall_mem_cons.mpr ⟨htk, hts⟩
    · rw [List.map_cons, htm, htsm, readBack, List.length_append]
    · have hnext : pre.length + (item :: items).length * (k + 2) =
          pre.length + k + 2 + items.length * (k + 2) := by
        rw [List.length_cons, Nat.succ_mul]
        omega
      rw [hnext, hbytes, hdata, readFrom_entry hfirst hne, ht, hrest]
      cases readFrom bytes data k (pre.length + k + 2 + items.length * (k + 2)) <;> rfl

/-! ## When nothing is lost -/

/-- The contents can be told from others by the value of their entry: offsets and numbers of programs
    share the bits below the program bit. -/
def Representable (offset : Nat) : TriggerContents → Prop
  | .program number => number.val < 0x8000
  | .events _ => offset < 0x8000

/-- The contents read back are no larger in this measure, and as large only when nothing is lost. -/
def weight : TriggerContents → Nat
  | .program number => number.val
  | .events _ => 0x8000

theorem readContents_weight (offset : Nat) (c : TriggerContents) :
    weight (readContents offset c) ≤ weight c ∧
      (weight (readContents offset c) = weight c → Representable offset c) := by
  cases c with
  | program number =>
    rw [readContents, weight, weight, and_program_bits, Representable]
    omega
  | events events =>
    rw [readContents, Representable]
    split
    next h => exact ⟨Nat.le_refl _, fun _ => h⟩
    next h =>
      rw [weight, weight, and_program_bits]
      omega

theorem readContents_eq {offset : Nat} {c : TriggerContents} (h : Representable offset c) :
    readContents offset c = c := by
  cases c with
  | program number =>
    have hbits : number &&& 0x7fff = number :=
      Fin.ext ((and_program_bits number).trans (Nat.mod_eq_of_lt h))
    rw [readContents, hbits]
  | events events => exact if_pos h

/-- What is known of each record and of the bytes in front of it. -/
def AllRepresentable (offset : Nat) (items : List Item) : Prop :=
  ∀ pre item post, items = pre ++ item :: post →
    Representable (offset + (storageBytes pre).length) item.2

theorem allRepresentable_cons {offset : Nat} {item : Item} {items : List Item} :
    AllRepresentable offset (item :: items) ↔
      Representable offset item.2 ∧ AllRepresentable (offset + (body item.2).length) items := by
  constructor
  · intro h
    refine ⟨h [] item items rfl, fun pre i post heq => ?_⟩
    have hi := h (item :: pre) i post (by rw [heq]; rfl)
    rwa [storageBytes_cons, List.length_append, ← Nat.add_assoc] at hi
  · rintro ⟨hitem, hitems⟩ pre i post heq
    cases pre with
    | nil =>
      obtain ⟨rfl, -⟩ := List.cons.inj heq
      exact hitem
    | cons first pre =>
      obtain ⟨rfl, hrest⟩ := List.cons.inj heq
      rw [storageBytes_cons, List.length_append, ← Nat.add_assoc]
      exact hitems pre i post hrest

theorem allRepresentable_nil (offset : Nat) : AllRepresentable offset [] := fun pre item post heq => by
  simp at heq

instance (offset : Nat) : (c : TriggerContents) → Decidable (Representable offset c)
  | .program number => inferInstanceAs (Decidable (number.val < 0x8000))
  | .events _ => inferInstanceAs (Decidable (offset < 0x8000))

instance AllRepresentable.decidable : (offset : Nat) → (items : List Item) →
    Decidable (AllRepresentable offset items)
  | offset, [] => isTrue (allRepresentable_nil offset)
  | offset, item :: items =>
    haveI := AllRepresentable.decidable (offset + (body item.2).length) items
    decidable_of_iff _ allRepresentable_cons.symm

/-- Keys and contents of an item. -/
def Item.meaning (item : Item) : Item := (keysOf item.1, item.2)

theorem readBack_weight : ∀ (items : List Item) (offset : Nat),
    ((readBack offset items).map (weight ·.2)).sum ≤ (items.map (weight ·.2)).sum ∧
      (((readBack offset items).map (weight ·.2)).sum = (items.map (weight ·.2)).sum →
        AllRepresentable offset items) := by
  intro items
  induction items with
  | nil =>
    intro offset
    refine ⟨Nat.le_refl _, fun _ pre item post heq => ?_⟩
    simp at heq
  | cons item items ih =>
    intro offset
    obtain ⟨hle, heq⟩ := readContents_weight offset item.2
    obtain ⟨hrestle, hresteq⟩ := ih (offset + (body item.2).length)
    rw [readBack, List.map_cons, List.map_cons, List.sum_cons, List.sum_cons]
    refine ⟨Nat.add_le_add hle hrestle, fun hsum => ?_⟩
    simp only at hsum
    exact allRepresentable_cons.mpr ⟨heq (by omega), hresteq (by omega)⟩

theorem readBack_eq : ∀ (items : List Item) (offset : Nat), AllRepresentable offset items →
    readBack offset items = items.map Item.meaning := by
  intro items
  induction items with
  | nil => exact fun _ _ => rfl
  | cons item items ih =>
    intro offset h
    obtain ⟨hitem, hitems⟩ := allRepresentable_cons.mp h
    rw [readBack, readContents_eq hitem, ih _ hitems]
    rfl

/-- **Nothing is lost** exactly when all contents can be represented where they stand. -/
theorem readBack_perm_iff (items : List Item) (offset : Nat) :
    (readBack offset items).Perm (items.map Item.meaning) ↔ AllRepresentable offset items := by
  constructor
  · intro h
    have hsum := (h.map (weight ·.2)).sum_nat
    rw [List.map_map] at hsum
    exact (readBack_weight items offset).2 hsum
  · intro h
    rw [readBack_eq items offset h]

/-! ## Round trip -/

/-- What was written reads back as the triggers that have keys, in ascending order of their keys. -/
def RoundTrip (k : Nat) (triggers : List Trigger) (index storage : List Byte) : Prop :=
  ∃ out, readTriggers index storage k = some out ∧
    (out.map (·.meaning)).Perm ((triggers.filter (·.triggerKeys ≠ [])).map (·.meaning)) ∧
    out.Pairwise fun a b => (EncodedTrigger.ofTrigger a).NotAfter (.ofTrigger b)

/-- The index has room for one entry more, or a part of one, than the triggers that have keys. -/
def FillerLeft (k indexSize : Nat) (triggers : List Trigger) : Prop :=
  (encoded triggers).length * (k + 2) < indexSize

instance (k indexSize : Nat) (triggers : List Trigger) : Decidable (FillerLeft k indexSize triggers) :=
  inferInstanceAs (Decidable (_ < _))

theorem EncodedTrigger.ofTrigger_padded {t : Trigger} (h : t.Fits k) (hne : t.triggerKeys ≠ []) :
    Padded k (EncodedTrigger.ofTrigger t).keys :=
  ⟨t.triggerKeys, hne, h.sorted, h.noKey_notMem, by rw [← h.perTrigger]; rfl, h.length_le⟩

theorem padded_items (qSort : Sorting EncodedTrigger.NotAfter) {triggers : List Trigger}
    (h : ∀ t ∈ triggers, t.triggerKeys ≠ [] → t.Fits k) :
    ∀ item ∈ (qSort.sort (encoded triggers)).map (·.item), Padded k item.1 := by
  intro item hitem
  obtain ⟨e, he, rfl⟩ := List.mem_map.mp hitem
  obtain ⟨t, ht, rfl⟩ := List.mem_map.mp (qSort.mem_sort.mp he)
  obtain ⟨hmem, hne⟩ := List.mem_filter.mp ht
  exact EncodedTrigger.ofTrigger_padded (h t hmem (of_decide_eq_true hne)) (of_decide_eq_true hne)

/-- The items are the triggers that have keys. -/
theorem items_meaning (qSort : Sorting EncodedTrigger.NotAfter) {triggers : List Trigger}
    (h : ∀ t ∈ triggers, t.triggerKeys ≠ [] → t.Fits k) :
    (((qSort.sort (encoded triggers)).map (·.item)).map Item.meaning).Perm
      ((triggers.filter (·.triggerKeys ≠ [])).map (·.meaning)) := by
  have hsame : ((encoded triggers).map (·.item)).map Item.meaning =
      (triggers.filter (·.triggerKeys ≠ [])).map (·.meaning) := by
    rw [encoded, List.map_map, List.map_map]
    refine List.map_congr_left fun t ht => ?_
    obtain ⟨hmem, hne⟩ := List.mem_filter.mp ht
    have hno := (h t hmem (of_decide_eq_true hne)).noKey_notMem
    exact Prod.ext (keysOf_append_noKey hno _) rfl
  rw [← hsame]
  exact ((qSort.perm _).map _).map _

theorem Padded.eq_append {key : List LogicalKeycode} (h : Padded k key) :
    keysOf key ++ List.replicate (k - (keysOf key).length) noKey = key := by
  obtain ⟨keys, -, -, hno, rfl, -⟩ := h
  rw [keysOf_append_noKey hno]

theorem readBack_keys : ∀ (items : List Item) (offset : Nat),
    (readBack offset items).map (·.1) = items.map (keysOf ·.1) := by
  intro items
  induction items with
  | nil => exact fun _ => rfl
  | cons item items ih =>
    intro offset
    rw [readBack, List.map_cons, ih]
    rfl

/-- Triggers read from sorted entries are sorted. -/
theorem pairwise_of_readBack {items : List Item} {ts : List Trigger} {offset : Nat}
    (hpadded : ∀ item ∈ items, Padded k item.1) (hk : ∀ t ∈ ts, t.keysPerTrigger = k)
    (hts : ts.map (·.meaning) = readBack offset items)
    (hsorted : (items.map (·.1)).Pairwise fun a b => ¬ b < a) :
    ts.Pairwise fun a b => (EncodedTrigger.ofTrigger a).NotAfter (.ofTrigger b) := by
  have hkeys : ts.map (·.triggerKeys) = items.map (keysOf ·.1) := by
    rw [← readBack_keys items offset, ← hts, List.map_map]
    rfl
  have hpad : ts.map (fun t => (EncodedTrigger.ofTrigger t).keys) = items.map (·.1) := by
    have hts_pad : ts.map (fun t => (EncodedTrigger.ofTrigger t).keys) =
        (ts.map (·.triggerKeys)).map fun keys => keys ++ List.replicate (k - keys.length) noKey := by
      rw [List.map_map]
      refine List.map_congr_left fun t ht => ?_
      show t.triggerKeys ++ List.replicate (t.keysPerTrigger - _) 0xff = _
      rw [hk t ht]
      rfl
    rw [hts_pad, hkeys, List.map_map]
    exact List.map_congr_left fun item hitem => (hpadded item hitem).eq_append
  rw [← hpad, List.pairwise_map] at hsorted
  exact hsorted

/-- What the reader makes of the output of `encodeTriggers`: everything, or it runs out of the index
    when no filler is left. -/
theorem readTriggers_written {indexSize storageSize : Nat} {items : List Item}
    {index storage : List Byte} (hw : Written k indexSize storageSize items index storage)
    (hpadded : ∀ item ∈ items, Padded k item.1) (hsize : storageSize < 65536) :
    ∃ ts : List Trigger, (∀ t ∈ ts, t.keysPerTrigger = k) ∧ ts.map (·.meaning) = readBack 0 items ∧
      readTriggers index storage k =
        if items.length * (k + 2) < indexSize then some ts else none := by
  have hdata : storage.drop 2 = storageBytes items ∧ (storageBytes items).length < 65536 := by
    rcases hw.storage_eq with ⟨rfl, -, hnone⟩ | ⟨rfl, hle⟩
    · rw [hnone]
      exact ⟨rfl, by decide⟩
    · rw [List.length_append] at hle
      exact ⟨rfl, by omega⟩
  have hlen := indexBytes_length 0 items hw.length_eq
  obtain ⟨ts, hk, hts, hread⟩ := readFrom_items
    (List.replicate (indexSize - items.length * (k + 2)) 0xff) [] items [] [] hpadded
    (by rw [List.length_nil, Nat.zero_add]; exact hdata.2)
  refine ⟨ts, hk, hts, ?_⟩
  have hindex : [] ++ (indexBytes ([] : List Byte).length items ++
      List.replicate (indexSize - items.length * (k + 2)) 0xff) = index := hw.index_eq.symm
  rw [hindex, List.append_nil, List.nil_append, List.length_nil, Nat.zero_add] at hread
  rw [readTriggers, hdata.1, hread]
  have hend : index[items.length * (k + 2)]? =
      (List.replicate (indexSize - items.length * (k + 2)) (0xff : Byte))[0]? := by
    rw [hw.index_eq, List.getElem?_append_right (by rw [hlen]), hlen, Nat.sub_self]
  split
  next hfiller =>
    rw [readFrom_filler, Option.map_some, List.append_nil]
    rw [hend]
    exact List.getElem?_replicate_of_lt (Nat.sub_pos_of_lt hfiller)
  next hfull =>
    rw [readFrom_outside, Option.map_none]
    rw [hend, Nat.sub_eq_zero_of_le (Nat.le_of_not_lt hfull)]
    rfl

/-- The round trip of triggers whose keys are in order. -/
theorem roundTrip_iff (qSort : Sorting EncodedTrigger.NotAfter) {indexSize storageSize : Nat}
    {triggers : List Trigger} {index storage : List Byte} (hsize : storageSize < 65536)
    (hfit : ∀ t ∈ triggers, t.triggerKeys ≠ [] → t.Fits k)
    (henc : encodeTriggers qSort triggers k indexSize storageSize = .ok (index, storage)) :
    RoundTrip k triggers index storage ↔ FillerLeft k indexSize triggers ∧
      AllRepresentable 0 ((qSort.sort (encoded triggers)).map (·.item)) := by
  have hpadded := padded_items qSort hfit
  have hmeaning := items_meaning qSort hfit
  obtain ⟨ts, hk, hts, hread⟩ :=
    readTriggers_written (encodeTriggers_ok hfit hsize henc) hpadded hsize
  rw [List.length_map, qSort.length_sort] at hread
  have hsorted : (((qSort.sort (encoded triggers)).map (·.item)).map (·.1)).Pairwise
      fun a b => ¬ b < a := by
    rw [List.map_map, List.pairwise_map]
    exact qSort.sorted _
  constructor
  · rintro ⟨out, hout, hperm, -⟩
    rw [hread] at hout
    by_cases hfiller : (encoded triggers).length * (k + 2) < indexSize
    · rw [if_pos hfiller] at hout
      obtain rfl := Option.some.inj hout
      rw [hts] at hperm
      exact ⟨hfiller, (readBack_perm_iff _ 0).mp (hperm.trans hmeaning.symm)⟩
    · rw [if_neg hfiller] at hout
      cases hout
  · rintro ⟨hfiller, hall⟩
    refine ⟨ts, hread.trans (if_pos hfiller), ?_, pairwise_of_readBack hpadded hk hts hsorted⟩
    rw [hts]
    exact ((readBack_perm_iff _ 0).mpr hall).trans hmeaning

/-- **The codec of the triggers**: what `encodeTriggers` wrote reads back exactly when it left a filler
    in the index and every program and every offset fits below the program bit; and the reader stays
    inside the two arrays, whoever wrote them, exactly when the entries it meets do and a filler ends
    them. -/
theorem readTriggers_iff (qSort : Sorting EncodedTrigger.NotAfter)
    (k indexSize storageSize maxKeys : Nat) (triggers : List Trigger) (index storage : List Byte) :
    (storageSize < 65536 → (∀ t ∈ triggers, t.Formed k) →
      encodeTriggers qSort triggers k indexSize storageSize = .ok (index, storage) →
      (RoundTrip k triggers index storage ↔ FillerLeft k indexSize triggers ∧
        AllRepresentable 0 ((qSort.sort (encoded triggers)).map (·.item)))) ∧
      ((readTriggers index storage maxKeys).isSome ↔
        EndsInFiller index (storage.drop 2) maxKeys 0) :=
  ⟨fun hsize hformed henc => roundTrip_iff qSort hsize (fun t ht _ => (hformed t ht).fits) henc,
    readFrom_isSome index (storage.drop 2) maxKeys 0⟩

/-- Two macros and a program come back, the program first. -/
theorem readTriggers_iff_three :
    RoundTrip 2
      [⟨2, [7], .macroTrigger, [5, 5], 0⟩, ⟨2, [4, 9], .programTrigger, [], 3⟩,
        ⟨2, [7, 8], .macroTrigger, [6], 0⟩]
      [4, 9, 3, 0x80, 7, 8, 0, 0, 7, 0xff, 3, 0, 0xff, 0xff, 0xff, 0xff]
      [7, 0, 1, 0, 6, 2, 0, 5, 5] :=
  ((readTriggers_iff insertionSort 2 16 64 2 _ _ _).1 (by decide) (by decide) (by decide +kernel)).mpr
    ⟨by decide, by decide +kernel⟩

/-- **A full index is read past its end**: one macro in an index of one entry is written and does not
    come back.  And an offset may lead out of the data. -/
theorem full_index_overrun :
    (¬ ∀ (qSort : Sorting EncodedTrigger.NotAfter) (k indexSize storageSize : Nat)
      (triggers : List Trigger) (index storage : List Byte), storageSize < 65536 →
      (∀ t ∈ triggers, t.Formed k) →
      encodeTriggers qSort triggers k indexSize storageSize = .ok (index, storage) →
      RoundTrip k triggers index storage) ∧
    ¬ ∀ (index rawData : List Byte) (maxKeys : Nat), (readTriggers index rawData maxKeys).isSome := by
  constructor
  · intro h
    obtain ⟨out, hout, -⟩ := h insertionSort 4 6 64 [⟨4, [7], .macroTrigger, [5], 0⟩]
      [7, 0xff, 0xff, 0xff, 0, 0] [3, 0, 1, 0, 5] (by decide) (by decide) (by decide +kernel)
    have hnone : readTriggers [7, 0xff, 0xff, 0xff, 0, 0] [3, 0, 1, 0, 5] 4 = none := by
      rw [readTriggers, readFrom_entry rfl (by decide), readFrom_outside rfl]
      rfl
    rw [hnone] at hout
    cases hout
  · intro h
    have hsome := h [7, 0xff, 0x7f, 0xff] [0, 0] 1
    have hnone : readTriggers [7, 0xff, 0x7f, 0xff] [0, 0] 1 = none := by
      rw [readTriggers, readFrom_entry rfl (by decide)]
      rfl
    rw [hnone] at hsome
    cases hsome

end KeyboardFirmware.Client
