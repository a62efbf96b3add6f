/-
  `keyboardmodel.cc`: a configuration file.

  The file has the parameters of the device, the two mappings, the table of programs, and the index and
  the storage of the triggers.  The reader compares the sizes of the arrays with the parameters and
  then runs the decoders.  A model comes back when its parts do (`reloads_iff`): a table of programs
  over its limit is written and refused, a full index is written and read past its end.  And the decoders
  trust what the sizes do not say, so that other bytes lead them out of the arrays (`sound_iff`).
-/
import KeyboardFirmware.Client.Program
import KeyboardFirmware.Client.RoundTrip

namespace KeyboardFirmware.Client

open Lib

/-! ## Streams -/

/-- What `QDataStream` is used for; `In` is a stream that is read. -/
structure DataStream where
  In : Type
  source : List Byte → In
  writeByte : Byte → List Byte
  writeShort : Fin 65536 → List Byte
  writeByteArray : List Byte → List Byte
  readByte : In → Byte × In
  readShort : In → Fin 65536 × In
  readByteArray : In → List Byte × In

/-- The length of a `QByteArray` is an `int`. -/
def maxByteArray : Nat := 2 ^ 31

/-- Integers and byte arrays are read as they were written. -/
structure DataStream.RoundTrips (q : DataStream) : Prop where
  byte : ∀ v rest, q.readByte (q.source (q.writeByte v ++ rest)) = (v, q.source rest)
  short : ∀ v rest, q.readShort (q.source (q.writeShort v ++ rest)) = (v, q.source rest)
  byteArray : ∀ bs rest, bs.length < maxByteArray →
    q.readByteArray (q.source (q.writeByteArray bs ++ rest)) = (bs, q.source rest)

/-! ## The model -/

variable {Layout : Type}

/-- `KeyboardModel`. -/
structure KeyboardModel (Layout : Type) where
  layoutID : Byte
  mappingSize : Byte
  numPrograms : Byte
  keysPerTrigger : Byte
  programSpace : Fin 65536
  macroIndexSize : Fin 65536
  macroStorageSize : Fin 65536
  defaultMapping : List Byte
  mapping : List Byte
  programs : List Program
  triggers : List Trigger
  layout : Layout

/-- `operator<<`; an exception is all that is left of a file it ends. -/
def KeyboardModel.write (q : DataStream) (qSort : Sorting EncodedTrigger.NotAfter)
    (kbm : KeyboardModel Layout) : Except InsufficentStorage (List Byte) := do
  let out := q.writeShort 1
  let out := out ++ q.writeByte kbm.layoutID ++ q.writeByte kbm.mappingSize ++
    q.writeByte kbm.numPrograms ++ q.writeByte kbm.keysPerTrigger ++ q.writeShort kbm.programSpace ++
    q.writeShort kbm.macroIndexSize ++ q.writeShort kbm.macroStorageSize
  let out := out ++ q.writeByteArray kbm.defaultMapping ++ q.writeByteArray kbm.mapping
  let out := out ++ q.writeByteArray (encodePrograms kbm.programs kbm.numPrograms kbm.programSpace)
  let macros ← encodeTriggers qSort kbm.triggers kbm.keysPerTrigger kbm.macroIndexSize
    kbm.macroStorageSize
  .ok (out ++ q.writeByteArray macros.1 ++ q.writeByteArray macros.2)

/-- What is read behind the version. -/
structure Fields where
  layoutID : Byte
  mappingSize : Byte
  numPrograms : Byte
  keysPerTrigger : Byte
  programSpace : Fin 65536
  macroIndexSize : Fin 65536
  macroStorageSize : Fin 65536
  defaultMapping : List Byte
  mapping : List Byte
  programs : List Byte
  macroIdx : List Byte
  macroStg : List Byte

def readFields (q : DataStream) (s : q.In) : Fields :=
  let (layoutID, s) := q.readByte s
  let (mappingSize, s) := q.readByte s
  let (numPrograms, s) := q.readByte s
  let (keysPerTrigger, s) := q.readByte s
  let (programSpace, s) := q.readShort s
  let (macroIndexSize, s) := q.readShort s
  let (macroStorageSize, s) := q.readShort s
  let (defaultMapping, s) := q.readByteArray s
  let (mapping, s) := q.readByteArray s
  let (programs, s) := q.readByteArray s
  let (macroIdx, s) := q.readByteArray s
  let (macroStg, _) := q.readByteArray s
  ⟨layoutID, mappingSize, numPrograms, keysPerTrigger, programSpace, macroIndexSize, macroStorageSize,
    defaultMapping, mapping, programs, macroIdx, macroStg⟩

/-- What `operator>>` comes to: `ReadCorruptData`, a read outside an array, the exception of
    `Layout::readLayout`, or a model. -/
inductive Loaded (Layout : Type)
  | corrupt
  | outside
  | noLayout
  | model (kbm : KeyboardModel Layout)

/-- The sizes that `operator>>` refuses. -/
def Fields.Refused (f : Fields) : Prop :=
  f.mappingSize.val ≠ f.defaultMapping.length ∨ f.mappingSize.val ≠ f.mapping.length ∨
    f.programSpace.val < f.programs.length ∨ f.macroIndexSize.val ≠ f.macroIdx.length ∨
    f.macroStorageSize.val < f.macroStg.length

instance (f : Fields) : Decidable f.Refused := inferInstanceAs (Decidable (_ ∨ _))

/-- `operator>>` from the comparison of the sizes on; `readLayout` finds a layout or throws. -/
def Fields.load (readLayout : Byte → Option Layout) (f : Fields) : Loaded Layout :=
  if f.Refused then .corrupt
  else
    match readPrograms f.programs f.numPrograms with
    | none => .outside
    | some programs =>
      match readTriggers f.macroIdx f.macroStg f.keysPerTrigger with
      | none => .outside
      | some triggers =>
        match readLayout f.layoutID with
        | none => .noLayout
        | some layout => .model
          ⟨f.layoutID, f.mappingSize, f.numPrograms, f.keysPerTrigger, f.programSpace, f.macroIndexSize,
            f.macroStorageSize, f.defaultMapping, f.mapping, programs, triggers, layout⟩

/-- `operator>>`. -/
def KeyboardModel.read (q : DataStream) (readLayout : Byte → Option Layout) (s : q.In) : Loaded Layout :=
  let (dataFileVersion, s) := q.readShort s
  if dataFileVersion ≠ 1 then .corrupt else (readFields q s).load readLayout

/-! ## Models that are held -/

/-- What every model has, whether it came from a device or a file and whatever the user edited: the
    programs and keys it says, its layout, and arrays of the sizes arrays can have.  The keys of a
    trigger need not be in order. -/
structure KeyboardModel.Held (readLayout : Byte → Option Layout) (kbm : KeyboardModel Layout) : Prop where
  programs : kbm.programs.length = kbm.numPrograms
  triggers : ∀ t ∈ kbm.triggers,
    t.keysPerTrigger = kbm.keysPerTrigger ∧ t.triggerKeys.length ≤ kbm.keysPerTrigger
  layout : readLayout kbm.layoutID = some kbm.layout
  defaultMapping : kbm.defaultMapping.length < maxByteArray
  mapping : kbm.mapping.length < maxByteArray
  programsSize : 4 * kbm.programs.length + kbm.programs.flatten.length < maxByteArray

/-- The same model, but for the triggers: those that have keys, in the order of their keys. -/
def Rebuilt (kbm m : KeyboardModel Layout) : Prop :=
  m = { kbm with triggers := m.triggers } ∧
    (m.triggers.map (·.meaning)).Perm ((kbm.triggers.filter (·.triggerKeys ≠ [])).map (·.meaning)) ∧
    m.triggers.Pairwise fun a b => (EncodedTrigger.ofTrigger a).NotAfter (.ofTrigger b)

/-- A file that is written is read back. -/
def KeyboardModel.Reloads (q : DataStream) (qSort : Sorting EncodedTrigger.NotAfter)
    (readLayout : Byte → Option Layout) (kbm : KeyboardModel Layout) : Prop :=
  ∀ out, kbm.write q qSort = .ok out →
    ∃ m, KeyboardModel.read q readLayout (q.source out) = .model m ∧ Rebuilt kbm m

/-- The triggers fit the index and, those with keys, the storage. -/
def KeyboardModel.MacrosFit (kbm : KeyboardModel Layout) : Prop :=
  let required := 2 + (storageBytes ((kbm.triggers.filter (·.triggerKeys ≠ [])).map (·.meaning))).length
  kbm.triggers.length * (kbm.keysPerTrigger + 2) ≤ kbm.macroIndexSize ∧
    (kbm.macroStorageSize = 0 ∧ required = 2 ∨ required ≤ kbm.macroStorageSize)

/-- Nothing of the model is lost in a file: the sizes are true, the programs fit, keys are in order and
    real, a filler is left in the index, and offsets and programs fit below the program bit. -/
structure KeyboardModel.Kept (qSort : Sorting EncodedTrigger.NotAfter) (kbm : KeyboardModel Layout) :
    Prop where
  defaultMapping : kbm.mappingSize.val = kbm.defaultMapping.length
  mapping : kbm.mappingSize.val = kbm.mapping.length
  programs : 4 * kbm.programs.length + kbm.programs.flatten.length ≤ kbm.programSpace
  keys : ∀ t ∈ kbm.triggers, t.triggerKeys ≠ [] →
    t.triggerKeys.Pairwise (· ≤ ·) ∧ noKey ∉ t.triggerKeys
  filler : FillerLeft kbm.keysPerTrigger kbm.macroIndexSize kbm.triggers
  representable : AllRepresentable 0 ((qSort.sort (encoded kbm.triggers)).map (·.item))

variable {q : DataStream} {qSort : Sorting EncodedTrigger.NotAfter} {readLayout : Byte → Option Layout}
  {kbm : KeyboardModel Layout}

/-! ## Writing -/

theorem storageBytes_encoded (triggers : List Trigger) :
    storageBytes ((encoded triggers).map (·.item)) =
      storageBytes ((triggers.filter (·.triggerKeys ≠ [])).map (·.meaning)) := by
  rw [encoded, List.map_map, storageBytes, storageBytes, List.flatMap_map, List.flatMap_map]
  rfl

/-- The triggers are written exactly when they fit. -/
theorem encodeTriggers_isOk_iff : (∃ macros, encodeTriggers qSort kbm.triggers kbm.keysPerTrigger
    kbm.macroIndexSize kbm.macroStorageSize = .ok macros) ↔ kbm.MacrosFit := by
  have hzero : kbm.macroStorageSize.val = 0 ↔ kbm.macroStorageSize = 0 := by rw [Fin.ext_iff]; rfl
  simp only [encodeTriggers, KeyboardModel.MacrosFit, storageRequired_foldl, storageBytes_encoded, hzero]
  split
  next hindex => exact iff_of_false (by simp) fun h => absurd h.1 (Nat.not_le.mpr hindex)
  next hindex =>
    rw [and_iff_right (Nat.not_lt.mp hindex)]
    split
    next hnone => exact iff_of_true ⟨_, rfl⟩ (.inl hnone)
    next hsome =>
      rw [or_iff_right hsome]
      split
      next hstorage => exact iff_of_false (by simp) (Nat.not_le.mpr hstorage)
      next hstorage => exact iff_of_true ⟨_, rfl⟩ (Nat.not_lt.mp hstorage)

/-- What a reader finds in the file of a model. -/
def KeyboardModel.fields (kbm : KeyboardModel Layout) (macros : List Byte × List Byte) : Fields where
  layoutID := kbm.layoutID
  mappingSize := kbm.mappingSize
  numPrograms := kbm.numPrograms
  keysPerTrigger := kbm.keysPerTrigger
  programSpace := kbm.programSpace
  macroIndexSize := kbm.macroIndexSize
  macroStorageSize := kbm.macroStorageSize
  defaultMapping := kbm.defaultMapping
  mapping := kbm.mapping
  programs := encodePrograms kbm.programs kbm.numPrograms kbm.programSpace
  macroIdx := macros.1
  macroStg := macros.2

/-- One trigger writes inside the arrays, whatever its keys. -/
theorem EncodedTrigger.encode_length {k base : Nat} {e : EncodedTrigger} {c : Cursors}
    (hper : e.keysPerTrigger = k) (hkeys : e.keys.length = k)
    (hindex : c.indexCursor + (k + 2) ≤ c.index.length)
    (hstorage : c.storageCursor + e.storageRequired ≤ c.storage.length) :
    (EncodedTrigger.encode base c e).index.length = c.index.length ∧
      (EncodedTrigger.encode base c e).storage.length = c.storage.length ∧
      (EncodedTrigger.encode base c e).indexCursor = c.indexCursor + (k + 2) ∧
      (EncodedTrigger.encode base c e).storageCursor ≤ c.storageCursor + e.storageRequired := by
  have hfirst : (overwrite c.index c.indexCursor e.keys).length = c.index.length :=
    overwrite_length (by omega)
  have hvalue : ∀ val : Fin 65536,
      (overwrite (overwrite c.index c.indexCursor e.keys) (c.indexCursor + k) (shortBytes val)).length =
        c.index.length := fun val => by
    rw [overwrite_length (by rw [shortBytes_length]; omega), hfirst]
  rw [EncodedTrigger.encode, EncodedTrigger.storageRequired, hper]
  rw [EncodedTrigger.storageRequired] at hstorage
  split
  · exact ⟨hfirst, rfl, rfl, Nat.le_add_right _ _⟩
  · cases hdata : e.data with
    | program number => exact ⟨hvalue _, rfl, rfl, Nat.le_refl _⟩
    | events events =>
      simp only [hdata] at hstorage
      have hmod : (Fin.ofNat 65536 events.length).val ≤ events.length := Nat.mod_le _ _
      have hlen : (overwrite c.storage c.storageCursor
          (shortBytes (Fin.ofNat 65536 events.length))).length = c.storage.length :=
        overwrite_length (by rw [shortBytes_length]; omega)
      refine ⟨hvalue _, ?_, rfl, ?_⟩
      · show (overwrite (overwrite c.storage c.storageCursor _) (c.storageCursor + 2) _).length = _
        rw [overwrite_length (by rw [List.length_take]; omega), hlen]
      · show c.storageCursor + 2 + (Fin.ofNat 65536 events.length).val ≤ _
        simp only
        omega

theorem encode_foldl_length {k base : Nat} : ∀ (es : List EncodedTrigger) (c : Cursors),
    (∀ e ∈ es, e.keysPerTrigger = k ∧ e.keys.length = k) →
    c.indexCursor + es.length * (k + 2) ≤ c.index.length →
    es.foldl (fun n et => n + et.storageRequired) c.storageCursor ≤ c.storage.length →
    (es.foldl (EncodedTrigger.encode base) c).index.length = c.index.length ∧
      (es.foldl (EncodedTrigger.encode base) c).storage.length = c.storage.length := by
  intro es
  induction es with
  | nil => exact fun _ _ _ _ => ⟨rfl, rfl⟩
  | cons e es ih =>
    intro c hkeys hindex hstorage
    rw [List.length_cons, Nat.succ_mul] at hindex
    rw [List.foldl_cons, storageRequired_foldl] at hstorage
    obtain ⟨hper, hlen⟩ := hkeys e List.mem_cons_self
    obtain ⟨hi, hs, hic, hsc⟩ := @EncodedTrigger.encode_length k base e c hper hlen (by omega) (by omega)
    rw [List.foldl_cons, ← hi, ← hs]
    exact ih _ (fun e he => hkeys e (List.mem_cons_of_mem _ he)) (by omega)
      (by rw [storageRequired_foldl]; omega)

/-- The arrays that are written are as long as they were made. -/
theorem encodeTriggers_lengths {macros : List Byte × List Byte}
    (hkeys : ∀ t ∈ kbm.triggers,
      t.keysPerTrigger = kbm.keysPerTrigger ∧ t.triggerKeys.length ≤ kbm.keysPerTrigger)
    (h : encodeTriggers qSort kbm.triggers kbm.keysPerTrigger kbm.macroIndexSize
      kbm.macroStorageSize = .ok macros) :
    macros.1.length = kbm.macroIndexSize ∧ macros.2.length ≤ kbm.macroStorageSize := by
  obtain ⟨es, hes⟩ : ∃ es, qSort.sort (encoded kbm.triggers) = es := ⟨_, rfl⟩
  have hperm : es.Perm (encoded kbm.triggers) := hes ▸ qSort.perm _
  have hformed : ∀ e ∈ es, e.keysPerTrigger = kbm.keysPerTrigger ∧ e.keys.length = kbm.keysPerTrigger := by
    intro e he
    obtain ⟨t, ht, rfl⟩ := List.mem_map.mp (hperm.mem_iff.mp he)
    obtain ⟨hper, hlen⟩ := hkeys t (List.mem_of_mem_filter ht)
    refine ⟨hper, ?_⟩
    show (t.triggerKeys ++ List.replicate (t.keysPerTrigger - t.triggerKeys.length) 0xff).length = _
    rw [List.length_append, List.length_replicate, hper]
    omega
  have hcount : es.length ≤ kbm.triggers.length := by
    rw [hperm.length_eq, encoded, List.length_map]
    exact List.length_filter_le _ _
  have htotal : ∀ n, es.foldl (fun n et => n + et.storageRequired) n =
      n + (storageBytes ((encoded kbm.triggers).map (·.item))).length := fun n => by
    rw [storageRequired_foldl, storageBytes_length_perm (hperm.map _)]
  rw [encodeTriggers] at h
  simp only [storageRequired_foldl, hes] at h
  split at h
  · cases h
  next hindex =>
  have hroom : es.length * (kbm.keysPerTrigger + 2) ≤ kbm.macroIndexSize :=
    (Nat.mul_le_mul_right _ hcount).trans (Nat.le_of_not_lt hindex)
  split at h
  next hnone =>
    obtain rfl := Except.ok.inj h
    obtain ⟨hi, hs⟩ := @encode_foldl_length kbm.keysPerTrigger 0 es
      ⟨List.replicate kbm.macroIndexSize 0xff, 0, [], 0⟩ hformed (by simpa using hroom)
      (by rw [htotal]; simp only [List.length_nil]; omega)
    refine ⟨hi.trans List.length_replicate, ?_⟩
    exact hs.le.trans (Nat.zero_le _)
  next hsome =>
  split at h
  · cases h
  next hstorage =>
  obtain rfl := Except.ok.inj h
  obtain ⟨required, hrequired⟩ : ∃ required,
    2 + (storageBytes ((encoded kbm.triggers).map (·.item))).length = required := ⟨_, rfl⟩
  rw [hrequired] at hstorage ⊢
  have hpos : required ≠ 0 := by omega
  have hend : (overwrite (List.replicate required 0) 0
      (shortBytes (Fin.ofNat 65536 (required - 2)))).length = required := by
    rw [overwrite_length (by rw [shortBytes_length, List.length_replicate]; omega), List.length_replicate]
  obtain ⟨hi, hs⟩ := @encode_foldl_length kbm.keysPerTrigger 2 es
    ⟨List.replicate kbm.macroIndexSize 0xff, 0, overwrite (List.replicate required 0) 0
      (shortBytes (Fin.ofNat 65536 (required - 2))), 2⟩ hformed (by simpa using hroom)
    (by rw [htotal, hrequired]; simp only [hend]; exact Nat.le_refl _)
  rw [buildOutput, if_pos hpos]
  refine ⟨hi.trans List.length_replicate, ?_⟩
  exact (hs.trans hend).le.trans (Nat.le_of_not_lt hstorage)

/-! ## Round trip -/

/-- The file of a model, behind the version. -/
def KeyboardModel.body (q : DataStream) (kbm : KeyboardModel Layout) (macros : List Byte × List Byte) :
    List Byte :=
  q.writeByte kbm.layoutID ++ (q.writeByte kbm.mappingSize ++ (q.writeByte kbm.numPrograms ++
    (q.writeByte kbm.keysPerTrigger ++ (q.writeShort kbm.programSpace ++
    (q.writeShort kbm.macroIndexSize ++ (q.writeShort kbm.macroStorageSize ++
    (q.writeByteArray kbm.defaultMapping ++ (q.writeByteArray kbm.mapping ++
    (q.writeByteArray (encodePrograms kbm.programs kbm.numPrograms kbm.programSpace) ++
    (q.writeByteArray macros.1 ++ (q.writeByteArray macros.2 ++ [])))))))))))

theorem write_eq {macros : List Byte × List Byte}
    (h : encodeTriggers qSort kbm.triggers kbm.keysPerTrigger kbm.macroIndexSize
      kbm.macroStorageSize = .ok macros) :
    kbm.write q qSort = .ok (q.writeShort 1 ++ kbm.body q macros) := by
  rw [KeyboardModel.write, h, KeyboardModel.body]
  simp only [List.append_nil, ← List.append_assoc]
  rfl

/-- A reader finds what was written. -/
theorem read_write (hq : q.RoundTrips) (hheld : kbm.Held readLayout) {macros : List Byte × List Byte}
    (h : encodeTriggers qSort kbm.triggers kbm.keysPerTrigger kbm.macroIndexSize
      kbm.macroStorageSize = .ok macros) :
    KeyboardModel.read q readLayout (q.source (q.writeShort 1 ++ kbm.body q macros)) =
      (kbm.fields macros).load readLayout := by
  obtain ⟨hidx, hstg⟩ := encodeTriggers_lengths hheld.triggers h
  have hbig : 65536 ≤ maxByteArray := by decide
  have hindexSize := kbm.macroIndexSize.isLt
  have hstorageSize := kbm.macroStorageSize.isLt
  have hprograms : (encodePrograms kbm.programs kbm.numPrograms kbm.programSpace).length <
      maxByteArray := by
    rw [← hheld.programs, encodePrograms_length]
    exact hheld.programsSize
  have hfields : readFields q (q.source (kbm.body q macros)) = kbm.fields macros := by
    simp only [readFields, KeyboardModel.body, hq.byte, hq.short,
      hq.byteArray _ _ hheld.defaultMapping, hq.byteArray _ _ hheld.mapping,
      hq.byteArray _ _ hprograms, hq.byteArray macros.1 _ (show macros.1.length < _ by omega),
      hq.byteArray macros.2 _ (show macros.2.length < _ by omega)]
    rfl
  rw [← hfields, KeyboardModel.read, hq.short]
  rfl

/-- A model comes back from a file that holds all its triggers when it is kept. -/
theorem load_fields_iff (hheld : kbm.Held readLayout) {macros : List Byte × List Byte}
    (h : encodeTriggers qSort kbm.triggers kbm.keysPerTrigger kbm.macroIndexSize
      kbm.macroStorageSize = .ok macros) :
    (∃ m, (kbm.fields macros).load readLayout = .model m ∧ Rebuilt kbm m) ↔ kbm.Kept qSort := by
  have hspace := kbm.programSpace.isLt
  have hlength : (kbm.fields macros).programs.length =
      4 * kbm.programs.length + kbm.programs.flatten.length := by
    show (encodePrograms kbm.programs kbm.numPrograms kbm.programSpace).length = _
    rw [← hheld.programs, encodePrograms_length]
  constructor
  · rintro ⟨m, hload, hsame, hperm, hsorted⟩
    rw [Fields.load] at hload
    split at hload
    · exact (nomatch hload)
    next haccepted =>
    simp only [Fields.Refused, not_or, Decidable.not_not, Nat.not_lt] at haccepted
    obtain ⟨hdefault, hmapping, hprograms, -, -⟩ := haccepted
    rw [hlength] at hprograms
    split at hload
    · exact (nomatch hload)
    split at hload
    · exact (nomatch hload)
    next triggers htriggers =>
    split at hload
    · exact (nomatch hload)
    obtain rfl := Loaded.model.inj hload
    -- the triggers that were read are in order, and so are those they stand for
    have hkeys : ∀ t ∈ kbm.triggers, t.triggerKeys ≠ [] →
        t.triggerKeys.Pairwise (· ≤ ·) ∧ noKey ∉ t.triggerKeys := by
      intro t ht hne
      have hmem := hperm.mem_iff.mpr (List.mem_map_of_mem (f := (·.meaning))
        (List.mem_filter.mpr ⟨ht, decide_eq_true hne⟩))
      obtain ⟨t', ht', heq⟩ := List.mem_map.mp hmem
      have hfits := readTriggers_fits htriggers t' ht'
      have hsameKeys : t'.triggerKeys = t.triggerKeys := congrArg Prod.fst heq
      rw [← hsameKeys]
      exact ⟨hfits.sorted, hfits.noKey_notMem⟩
    have hfit : ∀ t ∈ kbm.triggers, t.triggerKeys ≠ [] → t.Fits kbm.keysPerTrigger := fun t ht hne =>
      ⟨(hheld.triggers t ht).1, (hkeys t ht hne).1, (hkeys t ht hne).2, (hheld.triggers t ht).2⟩
    obtain ⟨hfiller, hrepresentable⟩ :=
      (roundTrip_iff qSort kbm.macroStorageSize.isLt hfit h).mp ⟨triggers, htriggers, hperm, hsorted⟩
    exact ⟨hdefault, hmapping, hprograms, hkeys, hfiller, hrepresentable⟩
  · intro hkept
    have hfit : ∀ t ∈ kbm.triggers, t.triggerKeys ≠ [] → t.Fits kbm.keysPerTrigger := fun t ht hne =>
      ⟨(hheld.triggers t ht).1, (hkept.keys t ht hne).1, (hkept.keys t ht hne).2, (hheld.triggers t ht).2⟩
    obtain ⟨triggers, htriggers, hperm, hsorted⟩ :=
      (roundTrip_iff qSort kbm.macroStorageSize.isLt hfit h).mpr ⟨hkept.filler, hkept.representable⟩
    obtain ⟨hidx, hstg⟩ := encodeTriggers_lengths hheld.triggers h
    have haccepted : ¬ (kbm.fields macros).Refused := by
      simp only [Fields.Refused, not_or, Decidable.not_not, Nat.not_lt]
      refine ⟨hkept.defaultMapping, hkept.mapping, ?_, hidx.symm, hstg⟩
      rw [hlength]
      exact hkept.programs
    obtain ⟨-, hprograms⟩ := (programsKept_iff kbm.programs kbm.programSpace).mpr
      ⟨hkept.programs, shortsSuffice_of_fits (hkept.programs.trans_lt hspace)⟩
    rw [hheld.programs] at hprograms
    refine ⟨{ kbm with triggers := triggers }, ?_, rfl, hperm, hsorted⟩
    have hread : readPrograms (kbm.fields macros).programs (kbm.fields macros).numPrograms =
      some kbm.programs := hprograms
    have htriggers' : readTriggers (kbm.fields macros).macroIdx (kbm.fields macros).macroStg
      (kbm.fields macros).keysPerTrigger = some triggers := htriggers
    have hlayout : readLayout (kbm.fields macros).layoutID = some kbm.layout := hheld.layout
    rw [Fields.load, if_neg haccepted]
    simp only [hread, htriggers', hlayout]
    rfl

/-- **A file reloads** exactly when its triggers were refused, or when nothing of the model is lost. -/
theorem reloads_iff (hq : q.RoundTrips) (hheld : kbm.Held readLayout) :
    kbm.Reloads q qSort readLayout ↔ ¬ kbm.MacrosFit ∨ kbm.Kept qSort := by
  by_cases hfit : kbm.MacrosFit
  · obtain ⟨macros, hmacros⟩ := encodeTriggers_isOk_iff.mpr hfit
    have hout : kbm.write q qSort = _ := write_eq hmacros
    rw [or_iff_right (not_not.mpr hfit), ← load_fields_iff hheld hmacros, ← read_write hq hheld hmacros]
    constructor
    · intro h
      exact h _ hout
    · intro h out hout'
      obtain rfl := Except.ok.inj (hout.symm.trans hout')
      exact h
  · refine iff_of_true (fun out hout => absurd ?_ hfit) (.inl hfit)
    rw [KeyboardModel.write] at hout
    cases hmacros : encodeTriggers qSort kbm.triggers kbm.keysPerTrigger kbm.macroIndexSize
        kbm.macroStorageSize with
    | ok macros => exact encodeTriggers_isOk_iff.mp ⟨macros, hmacros⟩
    | error e =>
      rw [hmacros] at hout
      exact (nomatch hout)

/-! ## Any bytes -/

/-- The reader reports corrupt data or yields a model, and stays inside the arrays. -/
def Loaded.Sound (r : Loaded Layout) : Prop := r = .corrupt ∨ ∃ m, r = .model m

/-- The table of programs, the index and the storage lead nowhere outside, and there is such a layout. -/
structure Fields.Inside (readLayout : Byte → Option Layout) (f : Fields) : Prop where
  programs : ∀ i < f.numPrograms.val, ProgramInside f.programs f.numPrograms i
  triggers : EndsInFiller f.macroIdx (f.macroStg.drop 2) f.keysPerTrigger 0
  layout : (readLayout f.layoutID).isSome

theorem load_sound_iff (f : Fields) :
    (f.load readLayout).Sound ↔ f.Refused ∨ f.Inside readLayout := by
  rw [Fields.load]
  split
  next hrefused => exact iff_of_true (.inl rfl) (.inl hrefused)
  next haccepted =>
  rw [or_iff_right haccepted]
  split
  next hprograms =>
    refine iff_of_false (by simp [Loaded.Sound]) fun h => ?_
    have hsome := readPrograms_isSome.mpr h.programs
    rw [hprograms] at hsome
    exact Bool.false_ne_true hsome
  next programs hprograms =>
  split
  next htriggers =>
    refine iff_of_false (by simp [Loaded.Sound]) fun h => ?_
    have hsome := (readFrom_isSome _ _ _ _).mpr h.triggers
    rw [readTriggers] at htriggers
    rw [htriggers] at hsome
    exact Bool.false_ne_true hsome
  next triggers htriggers =>
  split
  next hlayout =>
    refine iff_of_false (by simp [Loaded.Sound]) fun h => ?_
    have hsome := h.layout
    rw [hlayout] at hsome
    exact Bool.false_ne_true hsome
  next layout hlayout =>
    refine iff_of_true (.inr ⟨_, rfl⟩) ⟨readPrograms_isSome.mp ?_, (readFrom_isSome _ _ _ _).mp ?_, ?_⟩
    · rw [hprograms]
      rfl
    · rw [readTriggers] at htriggers
      rw [htriggers]
      rfl
    · rw [hlayout]
      rfl

/-- **The reader is sound** exactly when it refuses the version or the sizes, or is led nowhere outside
    to a layout. -/
theorem sound_iff (s : q.In) : (KeyboardModel.read q readLayout s).Sound ↔
    (q.readShort s).1 ≠ 1 ∨ (readFields q (q.readShort s).2).Refused ∨
      (readFields q (q.readShort s).2).Inside readLayout := by
  rw [← load_sound_iff]
  show (if (q.readShort s).1 ≠ 1 then _ else _ : Loaded Layout).Sound ↔ _
  split
  next hversion => exact iff_of_true (.inl rfl) (.inl hversion)
  next hversion => exact (or_iff_right hversion).symm

theorem readPrograms_flatten_le {programData : List Byte} {nPrograms : Nat} {programs : List Program}
    (h : readPrograms programData nPrograms = some programs) :
    programs.flatten.length ≤ 65535 * programs.length := by
  have hshort : ∀ b ∈ programs, b.length ≤ 65535 := by
    intro b hb
    obtain ⟨pre, post, rfl⟩ := List.append_of_mem hb
    have hread := h
    rw [← readPrograms_length h, readPrograms_eq_some] at hread
    have hentry := hread pre b post rfl
    obtain ⟨offset, -, hentry⟩ := Option.bind_eq_some_iff.mp hentry
    split at hentry
    · rw [← Option.some.inj hentry]
      exact Nat.zero_le _
    · obtain ⟨length, -, hentry⟩ := Option.bind_eq_some_iff.mp hentry
      rw [readBytes_length hentry]
      exact Nat.le_of_lt_succ length.isLt
  clear h
  induction programs with
  | nil => exact Nat.le_refl 0
  | cons b programs ih =>
    obtain ⟨hb, hrest⟩ := List.forall_mem_cons.mp hshort
    have hle := ih hrest
    rw [List.flatten_cons, List.length_append, List.length_cons]
    omega

/-- **What is read is a model that can be held**, and so be written again. -/
theorem read_held {s : q.In} {m : KeyboardModel Layout}
    (h : KeyboardModel.read q readLayout s = .model m) : m.Held readLayout := by
  have hload : ∃ f : Fields, f.load readLayout = .model m := by
    change (if (q.readShort s).1 ≠ 1 then _ else _ : Loaded Layout) = _ at h
    split at h
    · exact (nomatch h)
    · exact ⟨_, h⟩
  obtain ⟨f, hload⟩ := hload
  rw [Fields.load] at hload
  split at hload
  · exact (nomatch hload)
  next haccepted =>
  simp only [Fields.Refused, not_or, Decidable.not_not] at haccepted
  obtain ⟨hdefault, hmapping, -⟩ := haccepted
  split at hload
  · exact (nomatch hload)
  next programs hprograms =>
  split at hload
  · exact (nomatch hload)
  next triggers htriggers =>
  split at hload
  · exact (nomatch hload)
  next layout hlayout =>
  obtain rfl := Loaded.model.inj hload
  have hlength := readPrograms_length hprograms
  have hflat := readPrograms_flatten_le hprograms
  have hcount := f.numPrograms.isLt
  have hsize := f.mappingSize.isLt
  have hbig : maxByteArray = 2147483648 := rfl
  have hfits := readTriggers_fits htriggers
  exact ⟨hlength, fun t ht => ⟨(hfits t ht).perTrigger, (hfits t ht).length_le⟩, hlayout,
    by simp only; omega, by simp only; omega, by simp only; omega⟩

/-! ## The file as a whole -/

/-- **The configuration file**: a held model comes back exactly when its triggers are refused, or fit and
    nothing of the model is lost; and the reader reports corrupt data or yields a model exactly when it
    refuses the version or the sizes, or every array leads inside and there is such a layout. -/
theorem configurationFile_iff (q : DataStream) (qSort : Sorting EncodedTrigger.NotAfter)
    (readLayout : Byte → Option Layout) (kbm : KeyboardModel Layout) (s : q.In) (hq : q.RoundTrips) :
    (kbm.Held readLayout →
      (kbm.Reloads q qSort readLayout ↔ ¬ kbm.MacrosFit ∨ kbm.Kept qSort)) ∧
      ((KeyboardModel.read q readLayout s).Sound ↔
        (q.readShort s).1 ≠ 1 ∨ (readFields q (q.readShort s).2).Refused ∨
          (readFields q (q.readShort s).2).Inside readLayout) :=
  ⟨reloads_iff hq, sound_iff s⟩

/-- The format of `QDataStream`: high bytes first, the length in front of an array, and a length of all
    ones for none.  What is not there reads as zero or as no bytes. -/
def bigEndian : DataStream where
  In := List Byte
  source := id
  writeByte v := [v]
  writeShort v := (shortBytes v).reverse
  writeByteArray bs :=
    (shortBytes (Fin.ofNat 65536 (bs.length / 65536))).reverse ++
      (shortBytes (Fin.ofNat 65536 bs.length)).reverse ++ bs
  readByte
    | v :: s => (v, s)
    | [] => (0, [])
  readShort
    | high :: low :: s => (⟨low.val + 256 * high.val, twoBytes_lt low high⟩, s)
    | _ => (0, [])
  readByteArray
    | b3 :: b2 :: b1 :: b0 :: s =>
      let length := b0.val + 256 * b1.val + 65536 * b2.val + 16777216 * b3.val
      if length = 0xffffffff then ([], s)
      else if length ≤ s.length then (s.take length, s.drop length)
      else ([], [])
    | _ => ([], [])

theorem bigEndian_roundTrips : bigEndian.RoundTrips where
  byte _ _ := rfl
  short v rest := by
    have hval : v.val % 256 + 256 * (v.val / 256 % 256) = v.val := by omega
    exact Prod.ext (Fin.ext hval) rfl
  byteArray bs rest hbs := by
    have hbig : maxByteArray = 2147483648 := rfl
    obtain ⟨length, hlength⟩ : ∃ length, bs.length % 65536 % 256 + 256 * (bs.length % 65536 / 256 % 256) +
        65536 * (bs.length / 65536 % 65536 % 256) +
        16777216 * (bs.length / 65536 % 65536 / 256 % 256) = length := ⟨_, rfl⟩
    have heq : length = bs.length := by omega
    show (let l := bs.length % 65536 % 256 + 256 * (bs.length % 65536 / 256 % 256) +
        65536 * (bs.length / 65536 % 65536 % 256) +
        16777216 * (bs.length / 65536 % 65536 / 256 % 256)
      if l = 0xffffffff then (([] : List Byte), bs ++ rest)
      else if l ≤ (bs ++ rest).length then ((bs ++ rest).take l, (bs ++ rest).drop l)
      else ([], [])) = (bs, rest)
    simp only [hlength, heq]
    rw [if_neg (by omega), if_pos (by simp), List.take_left, List.drop_left]

/-- One layout, without its keys. -/
def oneLayout (layoutID : Byte) : Option Unit := if layoutID = 1 then some () else none

theorem configurationFile_iff_small :
    (⟨1, 1, 1, 2, 10, 8, 20, [4], [5], [[1, 2]], [⟨2, [7], .macroTrigger, [5], 0⟩], ()⟩ :
        KeyboardModel Unit).Reloads bigEndian insertionSort oneLayout ∧
      (KeyboardModel.read bigEndian oneLayout ([0, 2] : List Byte)).Sound := by
  have h := configurationFile_iff bigEndian insertionSort oneLayout
    ⟨1, 1, 1, 2, 10, 8, 20, [4], [5], [[1, 2]], [⟨2, [7], .macroTrigger, [5], 0⟩], ()⟩
    ([0, 2] : List Byte) bigEndian_roundTrips
  refine ⟨(h.1 ⟨rfl, by decide, rfl, by decide, by decide, by decide⟩).mpr (.inr ?_),
    h.2.mpr (.inl (by decide))⟩
  exact ⟨rfl, rfl, by decide, by decide, by decide, by decide +kernel⟩

/-- **A file that cannot be loaded**: the table of a program of two bytes is written although the space
    ends one byte before, and is refused.  **A file that leads outside**: the offset of its macro is
    behind the end of the storage. -/
theorem configurationFile_lost :
    (¬ ∀ (q : DataStream) (qSort : Sorting EncodedTrigger.NotAfter) (readLayout : Byte → Option Unit)
      (kbm : KeyboardModel Unit), q.RoundTrips → kbm.Held readLayout → kbm.Reloads q qSort readLayout) ∧
    ¬ ∀ (q : DataStream) (readLayout : Byte → Option Unit) (s : q.In), q.RoundTrips →
      (KeyboardModel.read q readLayout s).Sound := by
  constructor
  · intro h
    have hheld : (⟨1, 0, 1, 2, 5, 8, 20, [], [], [[1, 2]], [], ()⟩ : KeyboardModel Unit).Held oneLayout :=
      ⟨rfl, by decide, rfl, by decide, by decide, by decide⟩
    have hreloads := h bigEndian insertionSort oneLayout _ bigEndian_roundTrips hheld
    rcases (reloads_iff bigEndian_roundTrips hheld).mp hreloads with hnofit | hkept
    · exact hnofit ⟨by decide, .inr (by decide)⟩
    · exact absurd hkept.programs (by decide)
  · intro h
    have hsound := h bigEndian oneLayout ([0, 1, 1, 0, 0, 1, 0, 0, 0, 3, 0, 2, 0, 0, 0, 0, 0, 0, 0, 0, 0,
      0, 0, 0, 0, 0, 0, 3, 7, 5, 0, 0, 0, 0, 2, 0, 0] : List Byte) bigEndian_roundTrips
    rcases (sound_iff _).mp hsound with hversion | hrefused | hinside
    · exact hversion rfl
    · exact absurd hrefused (by decide)
    · obtain ⟨n, hentries, hend⟩ := hinside.triggers
      cases n with
      | zero => exact absurd hend (by decide)
      | succ n =>
        have hentry := (hentries 0 (Nat.succ_pos n)).2.2 5 rfl (by decide)
        exact absurd hentry (by decide)

end KeyboardFirmware.Client
