/-
  The table of held keys over whole runs.

  Between updates a slot is either empty or holds a key whose debounced bit is on, with its previous
  and its current state pressed (`TableOk`).  Within an update the slots go through a middle state
  (`MidSlot`) in which releases are marked and new keys are in; from there the last pass leads
  back.  No key is lost as long as the table has a slot for every key that an update has to do with,
  the released ones included (`table_tracks_keys`).
-/
import KeyboardFirmware.Keystate.Keystate
import KeyboardFirmware.Config.Layout
import Mathlib.Data.List.Nodup
import Mathlib.Data.List.Perm.Basic

namespace KeyboardFirmware

variable {hw : KeystateHardware}

/-- The keys of the occupied slots. -/
def heldKeys (slots : List KeyState) : List LogicalKeycode :=
  (slots.map (·.pKey)).filter fun p => p ≠ noKey

@[simp] theorem heldKeys_nil : heldKeys [] = [] := rfl

theorem heldKeys_cons_free {key : KeyState} (h : key.pKey = noKey) (slots : List KeyState) :
    heldKeys (key :: slots) = heldKeys slots := by
  rw [heldKeys, List.map_cons, List.filter_cons_of_neg (by simpa using h)]
  rfl

theorem heldKeys_cons_used {key : KeyState} (h : key.pKey ≠ noKey) (slots : List KeyState) :
    heldKeys (key :: slots) = key.pKey :: heldKeys slots := by
  rw [heldKeys, List.map_cons, List.filter_cons_of_pos (by simpa using h)]
  rfl

theorem mem_heldKeys {slots : List KeyState} {p : LogicalKeycode} :
    p ∈ heldKeys slots ↔ p ≠ noKey ∧ ∃ key ∈ slots, key.pKey = p := by
  simp [heldKeys, and_comm]

/-- The table between two updates. -/
structure TableOk (ks : Keystate) : Prop where
  length : ks.keyStates.length = keystateCount
  slots : ∀ key ∈ ks.keyStates, key = emptyKeyState ∨ (key.pKey ≠ noKey ∧
    key.prevState = true ∧ key.state = true ∧ ks.debouncedBitfield key.pKey = true)
  nodup : (heldKeys ks.keyStates).Nodup

/-- Only bits of keys of the matrix are ever set. -/
structure BitsOk (hw : KeystateHardware) (ks : Keystate) : Prop where
  scanned : ∀ i p, ks.debounceBitfields i p = true → p.val < hw.keypadLayerSize
  debounced : ∀ p, ks.debouncedBitfield p = true → p.val < hw.keypadLayerSize

/-! ## Scanning -/

theorem scanMatrix_lt {readColumn : Nat → Nat → Bool} {p : LogicalKeycode}
    (h : scanMatrix hw readColumn p = true) : p.val < hw.keypadLayerSize := by
  simp only [scanMatrix, List.any_eq_true, List.mem_range, Bool.and_eq_true,
    decide_eq_true_eq] at h
  obtain ⟨row, hrow, col, hcol, ⟨hp, hne⟩, -⟩ := h
  rcases hw.map_valid row hrow col hcol with hno | hlt
  · exact absurd (hp.symm.trans hno) hne
  · rwa [hp] at hlt

section Debounce

variable {ks : Keystate} {s : Scan} {p : LogicalKeycode}

/-- A debounced bit that is on was on before, or has just come on. -/
theorem debounced_cases (h : (scanAndDebounce hw ks s).debouncedBitfield p = true) :
    ks.debouncedBitfield p = true ∨ (scanAndDebounce hw ks s).debouncedOnBitfield p = true := by
  simp only [scanAndDebounce, debounce, Bool.and_eq_true, Bool.or_eq_true] at h ⊢
  rcases hold : ks.debouncedBitfield p
  · rw [hold] at h
    exact .inr ⟨rfl, h.1.resolve_left Bool.false_ne_true⟩
  · exact .inl rfl

/-- A key comes on only if it was off, and then its debounced bit is on. -/
theorem debouncedOn_spec (h : (scanAndDebounce hw ks s).debouncedOnBitfield p = true) :
    ks.debouncedBitfield p = false ∧ (scanAndDebounce hw ks s).debouncedBitfield p = true := by
  simp only [scanAndDebounce, debounce, Bool.and_eq_true, Bool.or_eq_true,
    Bool.not_eq_true'] at h ⊢
  obtain ⟨hold, hall⟩ := h
  refine ⟨hold, .inr hall, ?_⟩
  have hpos := s.len_pos
  exact List.any_eq_true.mpr ⟨0, List.mem_range.mpr hpos,
    List.all_eq_true.mp hall 0 (List.mem_range.mpr hpos)⟩

theorem BitsOk.scanAndDebounce (h : BitsOk hw ks) (s : Scan) :
    (∀ i p, (scanAndDebounce hw ks s).debounceBitfields i p = true → p.val < hw.keypadLayerSize) ∧
      ∀ p, (KeyboardFirmware.scanAndDebounce hw ks s).debouncedBitfield p = true →
        p.val < hw.keypadLayerSize := by
  have hfields : ∀ i p, (KeyboardFirmware.scanAndDebounce hw ks s).debounceBitfields i p = true →
      p.val < hw.keypadLayerSize := by
    intro i p hp
    simp only [KeyboardFirmware.scanAndDebounce] at hp
    by_cases hi : i = (ks.activeDebounceIndex + 1) % s.debounceLen
    · rw [hi, Function.update_self] at hp
      exact scanMatrix_lt hp
    · rw [Function.update_of_ne hi] at hp
      exact h.scanned i p hp
  refine ⟨hfields, fun p hp => ?_⟩
  simp only [KeyboardFirmware.scanAndDebounce, debounce, Bool.and_eq_true] at hp
  obtain ⟨i, -, hi⟩ := List.any_eq_true.mp hp.2
  exact hfields i p hi

end Debounce

theorem mem_bitKeys {p : LogicalKeycode} (h : p.val < hw.keypadLayerSize) : p ∈ bitKeys hw := by
  refine List.mem_map.mpr ⟨p.val, List.mem_range.mpr (by omega), ?_⟩
  exact Fin.ext (Nat.mod_eq_of_lt p.isLt)

theorem bitKeys_lt {p : LogicalKeycode} (h : p ∈ bitKeys hw) : p.val < 248 := by
  have hsize := hw.size_le
  obtain ⟨i, hi, rfl⟩ := List.mem_map.mp h
  rw [List.mem_range] at hi
  show i % 256 < 248
  omega

theorem bitKeys_ne_noKey {p : LogicalKeycode} (h : p ∈ bitKeys hw) : p ≠ noKey := by
  rintro rfl
  exact absurd (bitKeys_lt h) (by decide)

theorem bitKeys_nodup (hw : KeystateHardware) : (bitKeys hw).Nodup := by
  have hsize := hw.size_le
  refine List.Nodup.map_on (fun i hi j hj hij => ?_) List.nodup_range
  rw [List.mem_range] at hi hj
  have hij : i % 256 = j % 256 := congrArg Fin.val hij
  omega

/-! ## The passes of an update -/

theorem heldKeys_markReleased (debounced : LogicalKeycode → Bool) (slots : List KeyState) :
    heldKeys (slots.map (markReleased debounced)) = heldKeys slots := by
  have hkey : ∀ key, (markReleased debounced key).pKey = key.pKey := fun key => by
    unfold markReleased
    split
    · rfl
    · split <;> rfl
  simp only [heldKeys, List.map_map, Function.comp_def, hkey]

/-- What recording the new keys does: a first part of them goes to free slots, all of them if there
    are enough. -/
theorem recordKeys_spec : ∀ (slots : List KeyState) (pKeys : List LogicalKeycode),
    (∀ p ∈ pKeys, p ≠ noKey) →
    ∃ taken, taken <+: pKeys ∧
      (heldKeys (recordKeys pKeys slots).1).Perm (heldKeys slots ++ taken) ∧
      ((heldKeys slots).length + pKeys.length ≤ slots.length → taken = pKeys) ∧
      (recordKeys pKeys slots).1.length = slots.length ∧
      ∀ key ∈ (recordKeys pKeys slots).1, key ∈ slots ∨
        ∃ free ∈ slots, free.pKey = noKey ∧ ∃ p ∈ pKeys, key = { free with pKey := p, state := true }
  | slots, [], _ => by
    rw [recordKeys]
    exact ⟨[], List.prefix_rfl, by rw [List.append_nil], fun _ => rfl, rfl, fun key hkey => .inl hkey⟩
  | [], p :: pKeys, _ => by
    rw [recordKeys]
    refine ⟨[], List.nil_prefix, by simp, fun h => ?_, rfl, fun key hkey => (nomatch hkey)⟩
    exact absurd h (by simp)
  | key :: slots, p :: pKeys, hne => by
    by_cases hfree : key.pKey = noKey
    · obtain ⟨taken, hpart, hperm, hall, hlen, hslots⟩ := recordKeys_spec slots pKeys
        fun q hq => hne q (List.mem_cons_of_mem _ hq)
      rw [recordKeys, if_neg (not_not.mpr hfree)]
      refine ⟨p :: taken, List.cons_prefix_cons.mpr ⟨rfl, hpart⟩, ?_, fun h => ?_, ?_, ?_⟩
      · rw [heldKeys_cons_free hfree]
        refine (List.Perm.of_eq (heldKeys_cons_used (hne p List.mem_cons_self) _)).trans ?_
        exact (hperm.cons p).trans List.perm_middle.symm
      · rw [heldKeys_cons_free hfree] at h
        simp only [List.length_cons] at h
        rw [hall (by omega)]
      · rw [List.length_cons, List.length_cons, hlen]
      · intro k hk
        rcases List.mem_cons.mp hk with rfl | hk
        · exact .inr ⟨key, List.mem_cons_self, hfree, p, List.mem_cons_self, rfl⟩
        · rcases hslots k hk with hold | ⟨free, hf, hno, q, hq, heq⟩
          · exact .inl (List.mem_cons_of_mem _ hold)
          · exact .inr ⟨free, List.mem_cons_of_mem _ hf, hno, q, List.mem_cons_of_mem _ hq, heq⟩
    -- the slot is taken
    · obtain ⟨taken, hpart, hperm, hall, hlen, hslots⟩ := recordKeys_spec slots (p :: pKeys) hne
      rw [recordKeys, if_pos hfree]
      refine ⟨taken, hpart, ?_, fun h => ?_, ?_, ?_⟩
      · rw [heldKeys_cons_used hfree, heldKeys_cons_used hfree]
        exact hperm.cons key.pKey
      · rw [heldKeys_cons_used hfree] at h
        simp only [List.length_cons] at h hall
        exact hall (by omega)
      · rw [List.length_cons, List.length_cons, hlen]
      · intro k hk
        rcases List.mem_cons.mp hk with rfl | hk
        · exact .inl List.mem_cons_self
        · rcases hslots k hk with hold | ⟨free, hf, hrest⟩
          · exact .inl (List.mem_cons_of_mem _ hold)
          · exact .inr ⟨free, List.mem_cons_of_mem _ hf, hrest⟩

/-- A slot in the middle of an update: empty, a key held before that is released if its bit is off,
    or a new key. -/
def MidSlot (old debounced : LogicalKeycode → Bool) (key : KeyState) : Prop :=
  key = emptyKeyState ∨
    (key.pKey ≠ noKey ∧ key.prevState = true ∧ key.state = debounced key.pKey ∧
      old key.pKey = true) ∨
    (key.pKey ≠ noKey ∧ key.prevState = false ∧ key.state = true ∧ key.hidden = false ∧
      debounced key.pKey = true ∧ old key.pKey = false)

/-- The slots of an update once the new keys are in. -/
def recordedSlots (hw : KeystateHardware) (ks : Keystate) (s : Scan) : List KeyState :=
  (recordKeys ((bitKeys hw).filter (scanAndDebounce hw ks s).debouncedOnBitfield)
    (ks.keyStates.map (markReleased (scanAndDebounce hw ks s).debouncedBitfield))).1

/-- **The middle of an update**: the keys of the table are the old ones and a first part of those
    that have come on, all of them if there is room. -/
theorem TableOk.recorded {ks : Keystate} (h : TableOk ks) (hw : KeystateHardware) (s : Scan) :
    (∀ key ∈ recordedSlots hw ks s,
      MidSlot ks.debouncedBitfield (scanAndDebounce hw ks s).debouncedBitfield key) ∧
    (recordedSlots hw ks s).length = keystateCount ∧
    ∃ taken, taken <+: (bitKeys hw).filter (scanAndDebounce hw ks s).debouncedOnBitfield ∧
      (heldKeys (recordedSlots hw ks s)).Perm (heldKeys ks.keyStates ++ taken) ∧
      ((heldKeys ks.keyStates).length +
        ((bitKeys hw).filter (scanAndDebounce hw ks s).debouncedOnBitfield).length ≤ keystateCount →
        taken = (bitKeys hw).filter (scanAndDebounce hw ks s).debouncedOnBitfield) := by
  obtain ⟨taken, hpart, hperm, hall, hlen, hslots⟩ := recordKeys_spec
    (ks.keyStates.map (markReleased (scanAndDebounce hw ks s).debouncedBitfield))
    ((bitKeys hw).filter (scanAndDebounce hw ks s).debouncedOnBitfield)
    fun p hp => bitKeys_ne_noKey (List.mem_of_mem_filter hp)
  rw [heldKeys_markReleased] at hperm hall
  rw [List.length_map, h.length] at hall hlen
  -- a slot after the first pass
  have hmarked : ∀ key ∈ ks.keyStates.map
      (markReleased (scanAndDebounce hw ks s).debouncedBitfield), key = emptyKeyState ∨
      (key.pKey ≠ noKey ∧ key.prevState = true ∧
        key.state = (scanAndDebounce hw ks s).debouncedBitfield key.pKey ∧
        ks.debouncedBitfield key.pKey = true) := by
    intro key hkey
    obtain ⟨k, hk, rfl⟩ := List.mem_map.mp hkey
    rcases h.slots k hk with rfl | ⟨hne, hprev, hstate, hbit⟩
    · exact .inl (if_pos rfl)
    · right
      unfold markReleased
      rw [if_neg hne]
      split
      · next hoff => exact ⟨hne, hprev, (by simpa using hoff), hbit⟩
      · next hon => exact ⟨hne, hprev, (by simpa [hstate] using hon), hbit⟩
  refine ⟨fun key hkey => ?_, hlen, taken, hpart, hperm, hall⟩
  rcases hslots key hkey with hold | ⟨free, hfree, hno, p, hp, rfl⟩
  · rcases hmarked key hold with rfl | hused
    · exact .inl rfl
    · exact .inr (.inl hused)
  · rcases hmarked free hfree with rfl | ⟨hne, -⟩
    · obtain ⟨hoff, hon⟩ := debouncedOn_spec (List.mem_filter.mp hp).2
      exact .inr (.inr ⟨bitKeys_ne_noKey (List.mem_of_mem_filter hp), rfl, rfl, rfl, hon, hoff⟩)
    · exact absurd hno hne

/-- The last pass keeps the keys whose bit is on, and no others. -/
theorem heldKeys_finish {old debounced : LogicalKeycode → Bool} (layerChange : Bool) :
    ∀ {slots : List KeyState}, (∀ key ∈ slots, MidSlot old debounced key) →
      heldKeys (slots.map (finishSlot layerChange)) = (heldKeys slots).filter debounced ∧
        ∀ key ∈ slots.map (finishSlot layerChange), key = emptyKeyState ∨
          (key.pKey ≠ noKey ∧ key.prevState = true ∧ key.state = true ∧ debounced key.pKey = true)
  | [], _ => ⟨rfl, fun _ h => (nomatch h)⟩
  | key :: slots, h => by
    obtain ⟨hkeys, hslots⟩ := heldKeys_finish layerChange
      fun k hk => h k (List.mem_cons_of_mem _ hk)
    -- what becomes of the first slot
    have hfirst : (finishSlot layerChange key = emptyKeyState ∧
          (key.pKey = noKey ∨ debounced key.pKey = false)) ∨
        ((finishSlot layerChange key).pKey = key.pKey ∧ key.pKey ≠ noKey ∧
          (finishSlot layerChange key).prevState = true ∧
          (finishSlot layerChange key).state = true ∧ debounced key.pKey = true) := by
      unfold finishSlot
      rcases h key List.mem_cons_self with rfl | ⟨hne, hprev, hstate, -⟩ |
        ⟨hne, hprev, hstate, -, hbit, -⟩
      · exact .inl ⟨rfl, .inl rfl⟩
      · rw [if_neg hne, hprev, hstate]
        rcases hbit : debounced key.pKey
        · left
          simp
        · right
          cases layerChange <;> simp [hne, hprev, hstate, hbit]
      · right
        rw [if_neg hne, hprev, hstate]
        simp [hne, hbit]
    rw [List.map_cons]
    constructor
    · rcases hfirst with ⟨heq, hgone⟩ | ⟨hkey, hne, -, -, hbit⟩
      · rw [heq, heldKeys_cons_free rfl, hkeys]
        rcases hgone with hno | hoff
        · rw [heldKeys_cons_free hno]
        · by_cases hno : key.pKey = noKey
          · rw [heldKeys_cons_free hno]
          · rw [heldKeys_cons_used hno, List.filter_cons_of_neg (by simp [hoff])]
      · rw [heldKeys_cons_used (by rw [hkey]; exact hne), hkeys, heldKeys_cons_used hne,
          List.filter_cons_of_pos hbit, hkey]
    · intro k hk
      rcases List.mem_cons.mp hk with rfl | hk
      · rcases hfirst with ⟨heq, -⟩ | ⟨hkey, hne, hprev, hstate, hbit⟩
        · exact .inl heq
        · exact .inr ⟨by rw [hkey]; exact hne, hprev, hstate, by rw [hkey]; exact hbit⟩
      · exact hslots k hk

/-! ## One update -/

section Update

variable {ks : Keystate} (s : Scan)

theorem keystateUpdate_bits :
    (keystateUpdate hw ks s).1.debouncedBitfield = (scanAndDebounce hw ks s).debouncedBitfield :=
  rfl

/-- The slots after an update are those of its middle, finished. -/
theorem keystateUpdate_slots (hw : KeystateHardware) (ks : Keystate) (s : Scan) : ∃ layerChange, (keystateUpdate hw ks s).1.keyStates =
    (recordedSlots hw ks s).map (finishSlot layerChange) := ⟨_, rfl⟩

theorem heldKeys_update (hw : KeystateHardware) (h : TableOk ks) :
    heldKeys (keystateUpdate hw ks s).1.keyStates =
      (heldKeys (recordedSlots hw ks s)).filter (scanAndDebounce hw ks s).debouncedBitfield := by
  obtain ⟨layerChange, hslots⟩ := keystateUpdate_slots hw ks s
  rw [hslots, (heldKeys_finish layerChange (h.recorded hw s).1).1]

theorem heldKeys_bit (h : TableOk ks) {p : LogicalKeycode} (hp : p ∈ heldKeys ks.keyStates) :
    ks.debouncedBitfield p = true := by
  obtain ⟨hne, key, hkey, rfl⟩ := mem_heldKeys.mp hp
  rcases h.slots key hkey with rfl | ⟨-, -, -, hbit⟩
  · exact absurd rfl hne
  · exact hbit

/-- The held keys and those that have come on are different keys. -/
theorem heldKeys_append_nodup (h : TableOk ks) :
    (heldKeys ks.keyStates ++
      (bitKeys hw).filter (scanAndDebounce hw ks s).debouncedOnBitfield).Nodup := by
  refine List.nodup_append.mpr ⟨h.nodup, (bitKeys_nodup hw).filter _, ?_⟩
  rintro p hp q hq rfl
  have hoff := (debouncedOn_spec (List.mem_filter.mp hq).2).1
  rw [heldKeys_bit h hp] at hoff
  exact Bool.noConfusion hoff

/-- **Step**: an update keeps the table in order. -/
theorem TableOk.update (h : TableOk ks) : TableOk (keystateUpdate hw ks s).1 := by
  obtain ⟨hmid, hlen, taken, hpart, hperm, -⟩ := h.recorded hw s
  obtain ⟨layerChange, hslots⟩ := keystateUpdate_slots hw ks s
  refine ⟨?_, ?_, ?_⟩
  · rw [hslots, List.length_map, hlen]
  · rw [hslots]
    exact (heldKeys_finish layerChange hmid).2
  · rw [heldKeys_update s hw h]
    refine List.Nodup.filter _ (hperm.nodup_iff.mpr ?_)
    exact (heldKeys_append_nodup s h).sublist (hpart.sublist.append_left _)

theorem BitsOk.update (h : BitsOk hw ks) : BitsOk hw (keystateUpdate hw ks s).1 :=
  ⟨(h.scanAndDebounce s).1, (h.scanAndDebounce s).2⟩

/-- The keys an update has to do with: those debounced on before it or after it. -/
def keysAround (hw : KeystateHardware) (before after : Keystate) : List LogicalKeycode :=
  (bitKeys hw).filter fun p => before.debouncedBitfield p || after.debouncedBitfield p

/-- **Step**: while the table tracks all keys that are on and has room for all keys of an update, it
    tracks all keys that are on afterwards. -/
theorem tracks_update (hbits : BitsOk hw ks) (h : TableOk ks)
    (htracks : ∀ p, p ∈ heldKeys ks.keyStates ↔ ks.debouncedBitfield p = true)
    (hroom : (keysAround hw ks (keystateUpdate hw ks s).1).length ≤ keystateCount)
    (p : LogicalKeycode) : p ∈ heldKeys (keystateUpdate hw ks s).1.keyStates ↔
      (keystateUpdate hw ks s).1.debouncedBitfield p = true := by
  obtain ⟨-, -, taken, -, hperm, hall⟩ := h.recorded hw s
  -- the held keys and the new ones are among those counted
  have hsub : heldKeys ks.keyStates ++
      (bitKeys hw).filter (scanAndDebounce hw ks s).debouncedOnBitfield ⊆
      keysAround hw ks (keystateUpdate hw ks s).1 := by
    intro q hq
    rcases List.mem_append.mp hq with hq | hq
    · have hold := heldKeys_bit h hq
      exact List.mem_filter.mpr ⟨mem_bitKeys (hbits.debounced q hold), by rw [hold]; rfl⟩
    · obtain ⟨hq, hon⟩ := List.mem_filter.mp hq
      refine List.mem_filter.mpr ⟨hq, ?_⟩
      rw [keystateUpdate_bits, (debouncedOn_spec hon).2, Bool.or_true]
  have hlen := (List.subperm_of_subset (heldKeys_append_nodup s h) hsub).length_le
  rw [List.length_append] at hlen
  have htaken := hall (hlen.trans hroom)
  rw [heldKeys_update s hw h, keystateUpdate_bits, List.mem_filter, hperm.mem_iff, List.mem_append,
    htracks, htaken, List.mem_filter]
  refine ⟨fun h => h.2, fun hbit => ⟨?_, hbit⟩⟩
  refine (debounced_cases hbit).imp_right fun hon => ⟨?_, hon⟩
  exact mem_bitKeys ((hbits.scanAndDebounce s).2 p hbit)

end Update

/-! ## Runs -/

theorem hideSlot_pKey (p : LogicalKeycode) :
    ∀ slots : List KeyState, (hideSlot p slots).map (·.pKey) = slots.map (·.pKey)
  | [] => rfl
  | key :: slots => by
    unfold hideSlot
    split
    · rfl
    · rw [List.map_cons, List.map_cons, hideSlot_pKey p slots]

theorem mem_hideSlot {p : LogicalKeycode} {key : KeyState} :
    ∀ {slots : List KeyState}, key ∈ hideSlot p slots →
      key ∈ slots ∨ ∃ k ∈ slots, k.pKey = p ∧ key = { k with hidden := true }
  | k :: slots, h => by
    unfold hideSlot at h
    split at h
    · next hp =>
      rcases List.mem_cons.mp h with rfl | h
      · exact .inr ⟨k, List.mem_cons_self, hp.symm, rfl⟩
      · exact .inl (List.mem_cons_of_mem _ h)
    · rcases List.mem_cons.mp h with rfl | h
      · exact .inl List.mem_cons_self
      · rcases mem_hideSlot h with hold | ⟨k', hk', heq⟩
        · exact .inl (List.mem_cons_of_mem _ hold)
        · exact .inr ⟨k', List.mem_cons_of_mem _ hk', heq⟩

theorem heldKeys_hide (hw : KeystateHardware) (ks : Keystate) (lKey : LogicalKeycode) :
    heldKeys (keystateHideKey hw ks lKey).keyStates = heldKeys ks.keyStates := by
  show ((hideSlot _ ks.keyStates).map (·.pKey)).filter _ = _
  rw [hideSlot_pKey]
  rfl

/-- Hiding a key touches an occupied slot only, for `NO_KEY` is no physical key. -/
theorem TableOk.hide {ks : Keystate} (h : TableOk ks) (lKey : LogicalKeycode) :
    TableOk (keystateHideKey hw ks lKey) := by
  have hsize := hw.size_le
  have hmod := Nat.mod_lt lKey.val hw.size_pos
  refine ⟨?_, fun key hkey => ?_, by rw [heldKeys_hide]; exact h.nodup⟩
  · have hlen := congrArg List.length
      (hideSlot_pKey (Fin.ofNat 256 (lKey.val % hw.keypadLayerSize)) ks.keyStates)
    rw [List.length_map, List.length_map] at hlen
    exact hlen.trans h.length
  · rcases mem_hideSlot hkey with hold | ⟨k, hk, hp, rfl⟩
    · exact h.slots key hold
    · rcases h.slots k hk with rfl | hused
      · have hval : 255 = lKey.val % hw.keypadLayerSize % 256 := congrArg Fin.val hp
        omega
      · exact .inr hused

theorem keystateInit_ok (hw : KeystateHardware) : TableOk keystateInit ∧ BitsOk hw keystateInit := by
  refine ⟨⟨rfl, fun key hkey => .inl (List.eq_of_mem_replicate hkey), ?_⟩,
    fun _ _ h => (nomatch h), fun _ h => (nomatch h)⟩
  show ([] : List LogicalKeycode).Nodup
  exact List.nodup_nil

/-- Every update of the run has room in the table for the keys on before it or after it. -/
def RoomThroughout (hw : KeystateHardware) (ks : Keystate) : List KeyStep → Prop
  | [] => True
  | step :: steps => (keysAround hw ks (step.apply hw ks).1).length ≤ keystateCount ∧
      RoomThroughout hw (step.apply hw ks).1 steps

theorem KeyStep.apply_ok {ks : Keystate} (step : KeyStep) (h : TableOk ks) (hbits : BitsOk hw ks) :
    TableOk (step.apply hw ks).1 ∧ BitsOk hw (step.apply hw ks).1 := by
  cases step with
  | update scan => exact ⟨h.update scan, hbits.update scan⟩
  | hide lKey => exact ⟨h.hide lKey, hbits.1, hbits.2⟩

/-- **Run**: the table stays in order, and tracks the keys that are on as long as there is room. -/
theorem runKeys_table : ∀ (steps : List KeyStep) {ks : Keystate}, TableOk ks → BitsOk hw ks →
    (TableOk (runKeys hw ks steps).1 ∧ BitsOk hw (runKeys hw ks steps).1) ∧
      ((∀ p, p ∈ heldKeys ks.keyStates ↔ ks.debouncedBitfield p = true) →
        RoomThroughout hw ks steps → ∀ p, p ∈ heldKeys (runKeys hw ks steps).1.keyStates ↔
          (runKeys hw ks steps).1.debouncedBitfield p = true)
  | [], _, h, hbits => ⟨⟨h, hbits⟩, fun htracks _ => htracks⟩
  | step :: steps, ks, h, hbits => by
    obtain ⟨hok, hbits'⟩ := step.apply_ok h hbits
    obtain ⟨hrun, htracks⟩ := runKeys_table steps hok hbits'
    refine ⟨hrun, fun ht hroom => htracks ?_ hroom.2⟩
    cases step with
    | update scan => exact tracks_update scan hbits h ht hroom.1
    | hide lKey =>
      intro p
      show p ∈ heldKeys (keystateHideKey hw ks lKey).keyStates ↔ _
      rw [heldKeys_hide]
      exact ht p

/-- **The key table.**  After every run the occupied slots hold different keys, each debounced on and
    pressed, and the others are cleared; and as long as every update found at most `KEYSTATE_COUNT`
    keys on before or after it, the occupied slots are exactly the keys that are on. -/
theorem table_tracks_keys (steps : List KeyStep) :
    TableOk (runKeys hw keystateInit steps).1 ∧
      (RoomThroughout hw keystateInit steps →
        ∀ p, p ∈ heldKeys (runKeys hw keystateInit steps).1.keyStates ↔
          (runKeys hw keystateInit steps).1.debouncedBitfield p = true) := by
  obtain ⟨hok, hbits⟩ := keystateInit_ok hw
  obtain ⟨hrun, htracks⟩ := runKeys_table steps hok hbits
  refine ⟨hrun.1, fun hroom => htracks (fun p => ?_) hroom⟩
  refine ⟨fun hp => heldKeys_bit hok hp, fun hp => absurd hp Bool.false_ne_true⟩

/-- The readings while exactly `keys` are pressed. -/
def pressing (hw : KeystateHardware) (keys : List LogicalKeycode) (row col : Nat) : Bool :=
  keys.contains (hw.matrixToLogicalMap row col)

theorem debounceLen_pos : 0 < 3 := by decide

theorem debounceLen_le : 3 ≤ maxDebounceLen := by decide

/-- The K80CS with its default mapping and debounce length, scanned while `keys` are pressed. -/
def k80csScan (keys : List LogicalKeycode) : KeyStep :=
  .update ⟨3, debounceLen_pos, debounceLen_le, fun l => k80csLayout.logicalToHidMapDefault l,
    pressing k80csKeystate keys⟩

/-- Fourteen keys are held, then one of them is released and another pressed in the same scan.
    There are never more than `KEYSTATE_COUNT` keys on after a scan, and yet the new one is lost: the
    slot of the released key is still taken when it comes on. -/
theorem full_table_swap_loses_key :
    let steps := List.replicate 3 (k80csScan [4, 5, 6, 7, 8, 9, 10, 11, 12, 13, 14, 15, 16, 17]) ++
      List.replicate 3 (k80csScan [5, 6, 7, 8, 9, 10, 11, 12, 13, 14, 15, 16, 17, 18])
    (∀ n ≤ steps.length, ((bitKeys k80csKeystate).filter
      (runKeys k80csKeystate keystateInit (steps.take n)).1.debouncedBitfield).length ≤
        keystateCount) ∧
    (runKeys k80csKeystate keystateInit steps).1.debouncedBitfield 18 = true ∧
    18 ∉ heldKeys (runKeys k80csKeystate keystateInit steps).1.keyStates := by
  decide +kernel

end KeyboardFirmware
