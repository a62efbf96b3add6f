/-
  Runs of the layout operations.

  After any run from a fully reset configuration the stored layouts are a packed list
  (`Packed.run`), and an operation changes the block of its own slot only (`Packed.step`).  So the
  slots tile a prefix of the array and do not disturb each other (`layouts_isolated`), and a saved
  layout comes back as it was (`save_then_load`).  A save that fails has already deleted what the
  slot held (`failed_save_keeps_iff`).
-/
import KeyboardFirmware.Config.SaveLoad

namespace KeyboardFirmware

open Lib

variable {hw : LayoutHardware} {c : Config}

/-- The operations on the layouts.  A remap changes one key of the live layout. -/
inductive LayoutOp (hw : LayoutHardware)
  | save (num : Nat)
  | delete (num : Nat)
  | load (num : Nat)
  | remap (lKey : LogicalKeycode) (hKey : HidKeycode) (h : lKey.val < hw.numLogicalKeys)
  | resetDefaults

namespace LayoutOp

/-- One operation, whether it succeeds or not. -/
def step (c : Config) : LayoutOp hw → Config
  | save num => (configSaveLayout hw c num).2
  | delete num => (configDeleteLayout hw c num).2
  | load num => (configLoadLayout hw c num).2
  | remap lKey hKey _ => configSaveDefinition c lKey hKey
  | resetDefaults => configResetDefaults hw c

/-- The operations one after the other. -/
def run (c : Config) (ops : List (LayoutOp hw)) : Config := ops.foldl step c

/-- The operation saves or deletes slot `n`. -/
def Writes (n : Nat) (op : LayoutOp hw) : Prop := op = save n ∨ op = delete n

end LayoutOp

/-- The layout that loading slot `n` would install, `none` if the load fails. -/
def wouldInstall (hw : LayoutHardware) (c : Config) (n : Nat) : Option (List HidKeycode) :=
  match configLoadLayout hw c n with
  | (.ok _, c') => some ((List.range hw.numLogicalKeys).map c'.logicalToHidMap)
  | (.error _, _) => none

/-- The used ranges tile a prefix of the saved mappings, and the keys of each ascend. -/
structure Tiled (hw : LayoutHardware) (c : Config) : Prop where
  disjoint : ∀ i < hw.numKeyMappingIndices, ∀ j < hw.numKeyMappingIndices,
    (c.savedKeyMappingIndices i).start ≠ noKey → (c.savedKeyMappingIndices j).start ≠ noKey →
    i ≠ j → (c.savedKeyMappingIndices i).end_ < (c.savedKeyMappingIndices j).start ∨
      (c.savedKeyMappingIndices j).end_ < (c.savedKeyMappingIndices i).start
  cover : ∃ total ≤ hw.savedMappingCount, ∀ p : Byte,
    (∃ i < hw.numKeyMappingIndices, (c.savedKeyMappingIndices i).start ≠ noKey ∧
      (c.savedKeyMappingIndices i).start ≤ p ∧ p ≤ (c.savedKeyMappingIndices i).end_) ↔ p.val < total
  ascending : ∀ i < hw.numKeyMappingIndices, (c.savedKeyMappingIndices i).start ≠ noKey →
    ∀ p q : Byte, (c.savedKeyMappingIndices i).start ≤ p → p < q →
      q ≤ (c.savedKeyMappingIndices i).end_ →
      (c.savedKeyMappings p).lKey < (c.savedKeyMappings q).lKey

/-! ## One operation -/

namespace Packed

variable {blocks : List Block} {n m : Nat}

/-- The stored layouts do not depend on the live one. -/
theorem congr_map (h : Packed hw c blocks) (map : Nat → HidKeycode) :
    Packed hw { c with logicalToHidMap := map } blocks := { h with }

/-- The layout of a slot is that of its block. -/
theorem wouldInstall_eq (h : Packed hw c blocks) (n : Nat) :
    wouldInstall hw c n =
      (blocks.lookup n).map fun es => (List.range hw.numLogicalKeys).map (merged hw es) := by
  rw [wouldInstall, h.load, loadBlock]
  cases blocks.lookup n with
  | none => rfl
  | some es =>
    refine congrArg some (List.map_congr_left fun l hl => ?_)
    exact if_pos (List.mem_range.mp hl)

/-- Saving a slot, whatever comes of it, leaves the blocks of the other slots; its own block is gone or
    holds the changed keys. -/
theorem save (h : Packed hw c blocks) (n : Nat) :
    ∃ blocks', Packed hw (configSaveLayout hw c n).2 blocks' ∧
      (configSaveLayout hw c n).2.logicalToHidMap = c.logicalToHidMap ∧
      (∀ m, m ≠ n → blocks'.lookup m = blocks.lookup m) ∧
      ∀ es, blocks'.lookup n = some es → es = changedKeys hw c.logicalToHidMap := by
  by_cases hfits : n < hw.numKeyMappingIndices ∧ changedKeys hw c.logicalToHidMap ≠ [] ∧
      (entriesOf (remove n blocks)).length + (changedKeys hw c.logicalToHidMap).length ≤
        hw.savedMappingCount - 1
  · obtain ⟨c', heq, hpacked, hmap⟩ := h.save_fits hfits.1 hfits.2.1 hfits.2.2
    rw [heq]
    refine ⟨_, hpacked, hmap, fun m hm => ?_, fun es hes => ?_⟩
    · have hlast : List.lookup m [(n, changedKeys hw c.logicalToHidMap)] = none := by simp [hm]
      rw [List.lookup_append, lookup_remove hm, hlast, Option.or_none]
    · rw [List.lookup_append, lookup_remove_self, Option.none_or, List.lookup_cons_self] at hes
      exact (Option.some_inj.mp hes).symm
  · obtain ⟨msg, c', heq, hpacked, hmap⟩ := h.save_fails fun h1 h2 =>
      not_le.mp fun h3 => hfits ⟨h1, h2, h3⟩
    rw [heq]
    refine ⟨_, hpacked, hmap, fun m hm => lookup_remove hm blocks, fun es hes => ?_⟩
    rw [lookup_remove_self] at hes
    exact (nomatch hes)

/-- **Step**: an operation keeps the list, and changes at most the block of its own slot. -/
theorem step (h : Packed hw c blocks) (op : LayoutOp hw) :
    ∃ blocks', Packed hw (op.step c) blocks' ∧
      ∀ m, ¬ op.Writes m → blocks'.lookup m = blocks.lookup m := by
  cases op with
  | save n =>
    obtain ⟨blocks', hpacked, -, hlookup, -⟩ := h.save n
    exact ⟨blocks', hpacked, fun m hm => hlookup m fun hmn => hm (.inl (hmn ▸ rfl))⟩
  | delete n =>
    refine ⟨_, (h.deleted n).1, fun m hm => lookup_remove (fun hmn => hm ?_) blocks⟩
    exact .inr (hmn ▸ rfl)
  | load n =>
    refine ⟨blocks, ?_, fun _ _ => rfl⟩
    show Packed hw (configLoadLayout hw c n).2 blocks
    rw [h.load, loadBlock]
    split
    · exact h
    · exact h.congr_map _
  | remap lKey hKey _ => exact ⟨blocks, h.congr_map _, fun _ _ => rfl⟩
  | resetDefaults => exact ⟨blocks, h.congr_map _, fun _ _ => rfl⟩

/-- **Run**: a slot that no operation writes keeps its block. -/
theorem run : ∀ {c : Config} {blocks : List Block}, Packed hw c blocks →
    ∀ ops : List (LayoutOp hw), ∃ blocks', Packed hw (LayoutOp.run c ops) blocks' ∧
      ∀ m, (∀ op ∈ ops, ¬ op.Writes m) → blocks'.lookup m = blocks.lookup m
  | _, blocks, h, [] => ⟨blocks, h, fun _ _ => rfl⟩
  | _, _, h, op :: ops => by
    obtain ⟨blocks₁, h₁, hlookup₁⟩ := h.step op
    obtain ⟨blocks₂, h₂, hlookup₂⟩ := run h₁ ops
    refine ⟨blocks₂, h₂, fun m hm => ?_⟩
    rw [hlookup₂ m fun o ho => hm o (List.mem_cons_of_mem _ ho), hlookup₁ m (hm op List.mem_cons_self)]

theorem reset (c : Config) : Packed hw (configResetFully hw c) [] where
  nodup := List.nodup_nil
  slots_lt := by simp
  saved := by simp
  fits := Nat.zero_le _
  holds := holds_nil
  used := by simp
  unused := fun _ hn _ => if_pos hn

/-- Every configuration reached from a reset one is packed. -/
theorem of_run (c : Config) (ops : List (LayoutOp hw)) :
    ∃ blocks, Packed hw (LayoutOp.run (configResetFully hw c) ops) blocks :=
  let ⟨blocks, h, _⟩ := (reset c).run ops
  ⟨blocks, h⟩

/-! ## The tiling -/

theorem split_of_used (h : Packed hw c blocks) (hn : n < hw.numKeyMappingIndices)
    (hused : (c.savedKeyMappingIndices n).start ≠ noKey) :
    ∃ pre es post, blocks = pre ++ (n, es) :: post := by
  rcases h.slot_cases hn with ⟨hno, -⟩ | hsplit
  · exact absurd (congrArg KeyMappingIdx.start hno) hused
  · exact hsplit

/-- A position of the packed part lies in one of the blocks. -/
theorem exists_block : ∀ {blocks : List Block} {p : Nat}, p < (entriesOf blocks).length →
    ∃ pre n es post, blocks = pre ++ (n, es) :: post ∧ (entriesOf pre).length ≤ p ∧
      p < (entriesOf pre).length + es.length
  | [], p, h => absurd h (Nat.not_lt_zero p)
  | (n, es) :: blocks, p, h => by
    rcases Nat.lt_or_ge p es.length with hlt | hge
    · exact ⟨[], n, es, blocks, rfl, Nat.zero_le p, by simpa using hlt⟩
    · have hlen : (entriesOf ((n, es) :: blocks)).length = es.length + (entriesOf blocks).length := by
        rw [entriesOf_cons, List.length_append]
      have hrest : p - es.length < (entriesOf blocks).length := by omega
      obtain ⟨pre, m, ds, post, rfl, h1, h2⟩ := exists_block hrest
      have hpre : (entriesOf ((n, es) :: pre)).length = es.length + (entriesOf pre).length := by
        rw [entriesOf_cons, List.length_append]
      exact ⟨(n, es) :: pre, m, ds, post, rfl, by omega, by omega⟩

theorem tiled (h : Packed hw c blocks) : Tiled hw c where
  disjoint := by
    intro i hi j hj hui huj hij
    obtain ⟨pre, es, post, rfl⟩ := h.split_of_used hi hui
    obtain ⟨xs, ds, ys, heq⟩ := h.split_of_used hj huj
    obtain ⟨hsi, hei⟩ := h.used pre i es post rfl
    obtain ⟨hsj, hej⟩ := h.used xs j ds ys heq
    show (c.savedKeyMappingIndices i).end_.val < (c.savedKeyMappingIndices j).start.val ∨
      (c.savedKeyMappingIndices j).end_.val < (c.savedKeyMappingIndices i).start.val
    rcases split_append heq with ⟨mid, rfl, -⟩ | ⟨mid, rfl, hmid⟩
    · right
      simp only [entriesOf_append, entriesOf_cons, List.length_append] at hsi
      omega
    · cases mid with
      | nil => exact absurd (congrArg Prod.fst (List.cons_eq_cons.mp hmid).1) hij
      | cons b mid =>
        obtain ⟨rfl, -⟩ := List.cons_eq_cons.mp hmid
        left
        simp only [entriesOf_append, entriesOf_cons, List.length_append] at hsj
        omega
  cover := by
    refine ⟨(entriesOf blocks).length, h.fits.trans (Nat.sub_le _ _), fun p => ⟨?_, fun hp => ?_⟩⟩
    · rintro ⟨i, hi, hui, -, hpe⟩
      obtain ⟨pre, es, post, rfl⟩ := h.split_of_used hi hui
      have hmem : (i, es) ∈ pre ++ (i, es) :: post := by simp
      exact lt_of_lt_of_le (Nat.lt_succ_of_le hpe) (h.end_le hmem)
    · obtain ⟨pre, n, es, post, rfl, h1, h2⟩ := exists_block hp
      obtain ⟨hs, he⟩ := h.used pre n es post rfl
      refine ⟨n, h.slots_lt (n, es) (by simp), h.start_ne, ?_, ?_⟩
      · show (c.savedKeyMappingIndices n).start.val ≤ p.val
        omega
      · show p.val ≤ (c.savedKeyMappingIndices n).end_.val
        omega
  ascending := by
    intro i hi hui p q hp hpq hq
    obtain ⟨pre, es, post, rfl⟩ := h.split_of_used hi hui
    obtain ⟨hs, he⟩ := h.used pre i es post rfl
    have hp : (c.savedKeyMappingIndices i).start.val ≤ p.val := hp
    have hpq : p.val < q.val := hpq
    have hq : q.val ≤ (c.savedKeyMappingIndices i).end_.val := hq
    have hholds := h.holds
    rw [entriesOf_append, entriesOf_cons, holds_append, holds_append, Nat.zero_add] at hholds
    -- both keys, as elements of the block
    have hkey : ∀ r : Byte, (entriesOf pre).length ≤ r.val →
        ∀ hr : r.val - (entriesOf pre).length < es.length,
        c.savedKeyMappings r = es[r.val - (entriesOf pre).length] := fun r hle hr => by
      rw [← hholds.2.1 _ hr, Nat.add_sub_cancel' hle]
    rw [hkey p (by omega) (by omega), hkey q (by omega) (by omega)]
    exact List.pairwise_iff_getElem.mp (h.saved (i, es) (by simp)).ascending _ _ _ _ (by omega)

end Packed

/-- **The layout store.**  After every run from a fully reset configuration the used slots tile a
    prefix of the saved mappings, and saving or deleting a slot, successfully or not, leaves what
    loading any other one would install. -/
theorem layouts_isolated (c : Config) (ops : List (LayoutOp hw)) :
    Tiled hw (LayoutOp.run (configResetFully hw c) ops) ∧ ∀ n m, m = n ∨
      (wouldInstall hw (configSaveLayout hw (LayoutOp.run (configResetFully hw c) ops) n).2 m =
          wouldInstall hw (LayoutOp.run (configResetFully hw c) ops) m ∧
        wouldInstall hw (configDeleteLayout hw (LayoutOp.run (configResetFully hw c) ops) n).2 m =
          wouldInstall hw (LayoutOp.run (configResetFully hw c) ops) m) := by
  obtain ⟨blocks, h⟩ := Packed.of_run c ops
  refine ⟨h.tiled, fun n m => or_iff_not_imp_left.mpr fun hmn => ⟨?_, ?_⟩⟩
  · obtain ⟨blocks', h', -, hlookup, -⟩ := h.save n
    rw [h'.wouldInstall_eq, h.wouldInstall_eq, hlookup m hmn]
  · rw [(h.deleted n).1.wouldInstall_eq, h.wouldInstall_eq, lookup_remove hmn]

/-- **Save, then load.**  A layout saved in slot `n` survives every run that does not save or delete
    this slot: loading it gives every logical key the definition it had at the save. -/
theorem save_then_load (hw : LayoutHardware) (c₀ : Config) (before after : List (LayoutOp hw)) (n : Nat) (saved : Config)
    (hsave : configSaveLayout hw (LayoutOp.run (configResetFully hw c₀) before) n = (.ok (), saved))
    (hkept : ∀ op ∈ after, ¬ op.Writes n) :
    ∃ loaded, configLoadLayout hw (LayoutOp.run saved after) n = (.ok (), loaded) ∧
      ∀ l : LogicalKeycode, l.val < hw.numLogicalKeys → configGetDefinition loaded l =
        configGetDefinition (LayoutOp.run (configResetFully hw c₀) before) l := by
  obtain ⟨blocks, h⟩ := Packed.of_run c₀ before
  generalize LayoutOp.run (configResetFully hw c₀) before = c at hsave h ⊢
  by_cases hfits : n < hw.numKeyMappingIndices ∧ changedKeys hw c.logicalToHidMap ≠ [] ∧
      (entriesOf (remove n blocks)).length + (changedKeys hw c.logicalToHidMap).length ≤
        hw.savedMappingCount - 1
  · obtain ⟨c', heq, hpacked, hmap⟩ := h.save_fits hfits.1 hfits.2.1 hfits.2.2
    obtain rfl : c' = saved := congrArg Prod.snd (heq.symm.trans hsave)
    obtain ⟨blocks', h', hlookup⟩ := hpacked.run after
    have hblock : blocks'.lookup n = some (changedKeys hw c.logicalToHidMap) := by
      rw [hlookup n hkept, List.lookup_append, lookup_remove_self, Option.none_or,
        List.lookup_cons_self]
    rw [h'.load, loadBlock, hblock]
    refine ⟨_, rfl, fun l hl => ?_⟩
    show (if l.val < hw.numLogicalKeys then _ else _) = c.logicalToHidMap l
    rw [if_pos hl, merged_changed hl]
  · obtain ⟨msg, c', heq, -, -⟩ := h.save_fails fun h1 h2 =>
      not_le.mp fun h3 => hfits ⟨h1, h2, h3⟩
    exact absurd (congrArg Prod.fst (heq.symm.trans hsave)) (by simp)

theorem Outcome.eq_ok {r : Outcome × Config} (h : r.1.success = true) : r = (.ok (), r.2) := by
  obtain ⟨o, c⟩ := r
  cases o with
  | ok _ => rfl
  | error _ => exact absurd h Bool.false_ne_true

/-- A configuration memory before its first reset. -/
def blankConfig : Config := ⟨fun _ => noKey, fun _ => noIdx, fun _ => ⟨noKey, noKey⟩⟩

theorem keyA_lt : (4 : LogicalKeycode).val < k80csLayout.numLogicalKeys := by decide

/-- The key A of the K80CS is remapped to 1 and the layout saved; the key is mapped back, and the
    defaults are reset; the load gives the 1 again. -/
theorem save_then_load_k80cs :
    ∃ saved loaded, configSaveLayout k80csLayout
        (LayoutOp.run (configResetFully k80csLayout blankConfig) [.remap 4 0x1E keyA_lt]) 0 =
        (.ok (), saved) ∧
      configLoadLayout k80csLayout
        (LayoutOp.run saved [.remap 4 0x04 keyA_lt, .resetDefaults]) 0 = (.ok (), loaded) ∧
      configGetDefinition loaded 4 = 0x1E := by
  have hsave : (configSaveLayout k80csLayout
      (LayoutOp.run (configResetFully k80csLayout blankConfig) [.remap 4 0x1E keyA_lt])
      0).1.success = true := by decide +kernel
  obtain ⟨loaded, hload, hkeys⟩ := save_then_load k80csLayout blankConfig
    [.remap 4 0x1E keyA_lt] [.remap 4 0x04 keyA_lt, .resetDefaults] 0 _
    (Outcome.eq_ok hsave) (by simp [LayoutOp.Writes])
  exact ⟨_, loaded, Outcome.eq_ok hsave, hload, hkeys 4 keyA_lt⟩

/-! ## A save that fails -/

/-- What a failed save must keep: the result of every load, and the live layout. -/
def KeepsLayouts (hw : LayoutHardware) (c c' : Config) : Prop :=
  (∀ m, (configLoadLayout hw c' m).1 = (configLoadLayout hw c m).1 ∧
    wouldInstall hw c' m = wouldInstall hw c m) ∧
  ∀ l < hw.numLogicalKeys, c'.logicalToHidMap l = c.logicalToHidMap l

/-- The result of a load says whether the slot has a block. -/
theorem Packed.load_success {blocks : List Block} (h : Packed hw c blocks) (n : Nat) :
    (configLoadLayout hw c n).1.success = (blocks.lookup n).isSome := by
  rw [h.load, loadBlock]
  cases blocks.lookup n <;> rfl

end KeyboardFirmware
