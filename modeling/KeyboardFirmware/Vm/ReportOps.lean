/-
  The extra report as a set of keys.

  Adding, removing and toggling keys are the operations of a set: the keys in use are distinct, the bits
  are the modifiers that are in, and while no more than six other keys are in at once, nothing is lost
  (`extraReport_isSet`).
-/
import KeyboardFirmware.Vm.Merge
import Mathlib.Order.SymmDiff
import Mathlib.Data.Finset.SymmDiff

namespace KeyboardFirmware.Vm

open Compiler Lib

/-- The operations on the extra report. -/
inductive ReportOp where
  | add (key : Word8)
  | remove (key : Word8)
  | toggle (key : Word8)
  deriving DecidableEq

def ReportOp.key : ReportOp → Word8
  | add key => key
  | remove key => key
  | toggle key => key

def ExtraKeyboardReport.perform (r : ExtraKeyboardReport) : ReportOp → ExtraKeyboardReport
  | .add key => r.add key
  | .remove key => r.remove key
  | .toggle key => r.toggle key

/-- A cleared report after some operations. -/
def reportAfter (ops : List ReportOp) : ExtraKeyboardReport := ops.foldl ExtraKeyboardReport.perform .clear

/-! ## The set -/

/-- The same operation on a set of keys. -/
def ReportOp.onSet (s : Finset Word8) : ReportOp → Finset Word8
  | add key => insert key s
  | remove key => s.erase key
  | toggle key => symmDiff s {key}

/-- The empty set after some operations. -/
def keysAfter (ops : List ReportOp) : Finset Word8 := ops.foldl ReportOp.onSet ∅

/-- The keys that are no modifiers. -/
def normalKeys (s : Finset Word8) : Finset Word8 := s.filter fun key => key < ExtraKeyboardReport.leftControl

/-- At no time have more keys been in than there are places. -/
def AlwaysFits (ops : List ReportOp) : Prop :=
  ∀ before, before <+: ops → (normalKeys (keysAfter before)).card ≤ extraReportKeyCount

/-- The report has the key: a modifier as a bit, another key in one of its places. -/
def ExtraKeyboardReport.Has (r : ExtraKeyboardReport) (key : Word8) : Prop :=
  if ExtraKeyboardReport.leftControl ≤ key then modifierBit r.modifiers key = true else key ∈ r.keys

/-- After the operations the report is the set. -/
structure IsSet (ops : List ReportOp) : Prop where
  distinct : (occupied NO_KEY (reportAfter ops).keys).Nodup
  modifiers : ∀ key, ExtraKeyboardReport.leftControl ≤ key → key < 0xe8 →
    (modifierBit (reportAfter ops).modifiers key = true ↔ key ∈ keysAfter ops)
  contents : AlwaysFits ops → ∀ key < 0xe8, (reportAfter ops).Has key ↔ key ∈ keysAfter ops
  restores : ∀ key < 0xe8, AlwaysFits (ops ++ [.toggle key]) → ∀ other < 0xe8,
    ((((reportAfter ops).toggle key).toggle key).Has other ↔ (reportAfter ops).Has other)

/-! ## Toggling -/

section Toggle

variable {r : ExtraKeyboardReport} {key other : Word8} {s : Finset Word8}

theorem occupied_toggle_of_mem (hkey : key < ExtraKeyboardReport.leftControl) (hmem : key ∈ r.keys) :
    (occupied NO_KEY r.keys).Perm (key :: occupied NO_KEY (r.toggle key).keys) := by
  have htoggle : (r.toggle key).keys = (r.keys.reverse.replace key NO_KEY).reverse := by
    rw [ExtraKeyboardReport.toggle, if_neg (BitVec.not_le.mpr hkey), if_pos hmem]
  have hfree := occupied_free (ne_noKey hkey) (List.mem_reverse.mpr hmem)
  rw [htoggle, occupied_reverse]
  rw [occupied_reverse] at hfree
  exact (List.reverse_perm _).symm.trans (hfree.trans ((List.reverse_perm _).symm.cons key))

/-- **Toggling a key** takes it out when it is in, and adds it otherwise. -/
theorem KeysOk.toggle (h : KeysOk r) (hkey : key < ExtraKeyboardReport.leftControl) :
    KeysOk (r.toggle key) ∧ ∀ other < ExtraKeyboardReport.leftControl,
      (other ∈ (r.toggle key).keys ↔
        (other ∈ r.keys ∧ other ≠ key) ∨ (other = key ∧ key ∉ r.keys ∧ Takes r key)) := by
  by_cases hmem : key ∈ r.keys
  · have hperm := occupied_toggle_of_mem hkey hmem
    obtain ⟨hgone, hnodup⟩ := List.nodup_cons.mp (hperm.nodup_iff.mp h.nodup)
    refine ⟨⟨?_, hnodup, ?_⟩, fun other hother => ?_⟩
    · rw [ExtraKeyboardReport.toggle, if_neg (BitVec.not_le.mpr hkey), if_pos hmem, List.length_reverse,
        List.length_replace, List.length_reverse]
      exact h.length
    · intro other hother
      exact h.normal other (hperm.mem_iff.mpr (List.mem_cons_of_mem _ hother))
    · rw [mem_keys_iff hother r.keys, mem_keys_iff hother, hperm.mem_iff, List.mem_cons]
      constructor
      · intro hin
        exact .inl ⟨.inr hin, fun heq => hgone (heq ▸ hin)⟩
      · rintro (⟨rfl | hin, hne⟩ | ⟨-, hnot, -⟩)
        · exact absurd rfl hne
        · exact hin
        · exact absurd hmem hnot
  · have hadd : r.toggle key = r.add key := by
      rw [ExtraKeyboardReport.toggle, ExtraKeyboardReport.add, if_neg (BitVec.not_le.mpr hkey),
        if_neg (BitVec.not_le.mpr hkey), if_neg hmem, if_neg hmem]
    obtain ⟨hok, hkeys⟩ := h.add hkey
    rw [hadd]
    refine ⟨hok, fun other hother => (hkeys other hother).trans (or_congr ?_ ?_)⟩
    · exact ⟨fun hin => ⟨hin, fun heq => hmem (heq ▸ hin)⟩, And.left⟩
    · exact and_congr_right fun _ => ⟨fun htakes => ⟨hmem, htakes⟩, And.right⟩

/-- Toggling a modifier changes its own bit and no other. -/
theorem modifierBit_toggle (hkey : ExtraKeyboardReport.leftControl ≤ key)
    (hother : ExtraKeyboardReport.leftControl ≤ other) (hlt : other < 0xe8) :
    modifierBit (r.toggle key).modifiers other = (modifierBit r.modifiers other ^^ decide (other = key)) := by
  rw [ExtraKeyboardReport.toggle, if_pos hkey]
  unfold modifierBit
  rw [BitVec.getLsbD_xor, modifier_mask hkey hother hlt]

/-! ## One operation -/

/-- The report shows the modifiers that are in, and as long as there is room the other keys as well. -/
structure ShowsSet (r : ExtraKeyboardReport) (s : Finset Word8) (fits : Prop) : Prop where
  ok : KeysOk r
  modifiers : ∀ key, ExtraKeyboardReport.leftControl ≤ key → key < 0xe8 →
    (modifierBit r.modifiers key = true ↔ key ∈ s)
  keys : fits → ∀ key < ExtraKeyboardReport.leftControl, key ∈ r.keys ↔ key ∈ s

theorem mem_normalKeys : key ∈ normalKeys s ↔ key ∈ s ∧ key < ExtraKeyboardReport.leftControl :=
  Finset.mem_filter

/-- A report that shows a set has a place for one more key of a set that fits. -/
theorem takes_of_fits (hok : KeysOk r) (hkeys : ∀ key < ExtraKeyboardReport.leftControl, key ∈ r.keys ↔ key ∈ s)
    (hkey : key < ExtraKeyboardReport.leftControl)
    (hfits : (normalKeys (insert key s)).card ≤ extraReportKeyCount) : Takes r key := by
  rw [takes_iff hok hkey]
  by_cases hmem : key ∈ r.keys
  · exact .inl hmem
  refine .inr (free_mem_of_lt ?_)
  have hnodup : (key :: occupied NO_KEY r.keys).Nodup :=
    List.nodup_cons.mpr ⟨fun hin => hmem ((mem_keys_iff hkey _).mpr hin), hok.nodup⟩
  have hsub : (key :: occupied NO_KEY r.keys).toFinset ⊆ normalKeys (insert key s) := by
    intro other hother
    rcases List.mem_cons.mp (List.mem_toFinset.mp hother) with rfl | hin
    · exact mem_normalKeys.mpr ⟨Finset.mem_insert_self _ _, hkey⟩
    · have hnormal := hok.normal other hin
      have hs := (hkeys other hnormal).mp ((mem_keys_iff hnormal _).mpr hin)
      exact mem_normalKeys.mpr ⟨Finset.mem_insert_of_mem hs, hnormal⟩
  have hcard := Finset.card_le_card hsub
  rw [List.toFinset_card_of_nodup hnodup, List.length_cons] at hcard
  rw [hok.length]
  omega

variable {fits fits' : Prop}

/-- An operation changes only whether its own key is in. -/
theorem mem_onSet_of_ne (op : ReportOp) (hne : other ≠ op.key) : other ∈ op.onSet s ↔ other ∈ s := by
  cases op with
  | add key => exact Finset.mem_insert.trans (or_iff_right hne)
  | remove key => exact Finset.mem_erase.trans (and_iff_right hne)
  | toggle key =>
    show other ∈ symmDiff s {key} ↔ _
    have hnot : other ∉ ({key} : Finset Word8) := fun hin => hne (Finset.mem_singleton.mp hin)
    rw [Finset.mem_symmDiff]
    exact ⟨fun hin => hin.elim And.left fun hin => absurd hin.1 hnot, fun hin => .inl ⟨hin, hnot⟩⟩

/-- An operation on a modifier. -/
theorem ShowsSet.modifier (h : ShowsSet r s fits) (op : ReportOp) (hkey : ExtraKeyboardReport.leftControl ≤ op.key)
    (hfits : fits' → fits) : ShowsSet (r.perform op) (op.onSet s) fits' := by
  have hkeys : ∀ other < ExtraKeyboardReport.leftControl, other ∈ op.onSet s ↔ other ∈ s := by
    intro other hother
    exact mem_onSet_of_ne op fun heq => absurd (heq ▸ hkey) (BitVec.not_le.mpr hother)
  have hbits := h.modifiers
  cases op with
  | add key =>
    replace hkey : ExtraKeyboardReport.leftControl ≤ key := hkey
    have hsame : (r.add key).keys = r.keys := (keys_of_modifier hkey).1
    refine ⟨h.ok.congr hsame, fun other hle hlt => ?_, fun hf other hlt => ?_⟩
    · show modifierBit (r.add key).modifiers other = true ↔ other ∈ insert key s
      rw [(modifierBit_apply hkey hle hlt).1, Bool.or_eq_true, decide_eq_true_eq, hbits other hle hlt, Finset.mem_insert, or_comm]
    · rw [hkeys other hlt, ← h.keys (hfits hf) other hlt, ← hsame]
      rfl
  | remove key =>
    replace hkey : ExtraKeyboardReport.leftControl ≤ key := hkey
    have hsame : (r.remove key).keys = r.keys := (keys_of_modifier hkey).2
    refine ⟨h.ok.congr hsame, fun other hle hlt => ?_, fun hf other hlt => ?_⟩
    · show modifierBit (r.remove key).modifiers other = true ↔ other ∈ s.erase key
      rw [(modifierBit_apply hkey hle hlt).2, Bool.and_eq_true, Bool.not_eq_true',
        decide_eq_false_iff_not, hbits other hle hlt, Finset.mem_erase, and_comm]
    · rw [hkeys other hlt, ← h.keys (hfits hf) other hlt, ← hsame]
      rfl
  | toggle key =>
    replace hkey : ExtraKeyboardReport.leftControl ≤ key := hkey
    have hsame : (r.toggle key).keys = r.keys := by
      rw [ExtraKeyboardReport.toggle, if_pos hkey]
    refine ⟨h.ok.congr hsame, fun other hle hlt => ?_, fun hf other hlt => ?_⟩
    · show modifierBit (r.toggle key).modifiers other = true ↔ other ∈ symmDiff s {key}
      rw [modifierBit_toggle hkey hle hlt, Finset.mem_symmDiff, Finset.mem_singleton, ← hbits other hle hlt]
      by_cases heq : other = key <;> cases modifierBit r.modifiers other <;> simp [heq]
    · rw [hkeys other hlt, ← h.keys (hfits hf) other hlt, ← hsame]
      rfl

/-- An operation on another key. -/
theorem ShowsSet.normal (h : ShowsSet r s fits) (op : ReportOp) (hkey : op.key < ExtraKeyboardReport.leftControl)
    (hfits : fits' → fits ∧ (normalKeys (op.onSet s)).card ≤ extraReportKeyCount) :
    ShowsSet (r.perform op) (op.onSet s) fits' := by
  have hmodifier : ∀ other, ExtraKeyboardReport.leftControl ≤ other → (other ∈ op.onSet s ↔ other ∈ s) := by
    intro other hother
    exact mem_onSet_of_ne op fun heq => absurd (heq ▸ hkey) (BitVec.not_lt.mpr hother)
  cases op with
  | add key =>
    replace hkey : key < ExtraKeyboardReport.leftControl := hkey
    obtain ⟨hok, hmem⟩ := h.ok.add hkey
    refine ⟨hok, fun other hle hlt => ?_, fun hf other hlt => ?_⟩
    · rw [hmodifier other hle, ← h.modifiers other hle hlt]
      show modifierBit (r.add key).modifiers other = true ↔ _
      rw [(modifiers_of_normal hkey).1]
    · obtain ⟨hold, hroom⟩ := hfits hf
      have htakes := takes_of_fits h.ok (h.keys hold) hkey hroom
      show other ∈ (r.add key).keys ↔ other ∈ insert key s
      rw [hmem other hlt, h.keys hold other hlt, Finset.mem_insert, and_iff_left htakes, or_comm]
  | remove key =>
    replace hkey : key < ExtraKeyboardReport.leftControl := hkey
    obtain ⟨hok, hmem⟩ := h.ok.remove hkey
    refine ⟨hok, fun other hle hlt => ?_, fun hf other hlt => ?_⟩
    · rw [hmodifier other hle, ← h.modifiers other hle hlt]
      show modifierBit (r.remove key).modifiers other = true ↔ _
      rw [(modifiers_of_normal hkey).2]
    · show other ∈ (r.remove key).keys ↔ other ∈ s.erase key
      rw [hmem other hlt, h.keys (hfits hf).1 other hlt, Finset.mem_erase, and_comm]
  | toggle key =>
    replace hkey : key < ExtraKeyboardReport.leftControl := hkey
    obtain ⟨hok, hmem⟩ := h.ok.toggle hkey
    refine ⟨hok, fun other hle hlt => ?_, fun hf other hlt => ?_⟩
    · rw [hmodifier other hle, ← h.modifiers other hle hlt]
      show modifierBit (r.toggle key).modifiers other = true ↔ _
      rw [ExtraKeyboardReport.toggle, if_neg (BitVec.not_le.mpr hkey)]
      split_ifs <;> rfl
    · obtain ⟨hold, hroom⟩ := hfits hf
      have hkeys := h.keys hold
      show other ∈ (r.toggle key).keys ↔ other ∈ symmDiff s {key}
      rw [hmem other hlt, hkeys other hlt, hkeys key hkey, Finset.mem_symmDiff, Finset.mem_singleton]
      refine or_congr_right ⟨?_, ?_⟩
      · rintro ⟨rfl, hnot, -⟩
        exact ⟨rfl, hnot⟩
      · rintro ⟨rfl, hnot⟩
        -- the key is new: the set that fits has one element more
        have hinsert : symmDiff s {other} = insert other s := by
          ext x
          rw [Finset.mem_symmDiff, Finset.mem_singleton, Finset.mem_insert]
          constructor
          · rintro (⟨hx, -⟩ | ⟨rfl, -⟩)
            · exact .inr hx
            · exact .inl rfl
          · rintro (rfl | hx)
            · exact .inr ⟨rfl, hnot⟩
            · exact .inl ⟨hx, fun heq => hnot (heq ▸ hx)⟩
        have hroom' : (normalKeys (insert other s)).card ≤ extraReportKeyCount := hinsert ▸ hroom
        exact ⟨rfl, hnot, takes_of_fits h.ok hkeys hkey hroom'⟩

end Toggle

/-! ## A run -/

section Run

variable {ops : List ReportOp} {op : ReportOp} {key : Word8}

theorem reportAfter_concat (ops : List ReportOp) (op : ReportOp) :
    reportAfter (ops ++ [op]) = (reportAfter ops).perform op := by
  rw [reportAfter, List.foldl_append]
  rfl

theorem keysAfter_concat (ops : List ReportOp) (op : ReportOp) :
    keysAfter (ops ++ [op]) = op.onSet (keysAfter ops) := by
  rw [keysAfter, List.foldl_append]
  rfl

theorem AlwaysFits.of_prefix {before : List ReportOp} (h : AlwaysFits ops) (hb : before <+: ops) :
    AlwaysFits before := fun _ h' => h _ (h'.trans hb)

/-- **After any operations** the report shows the set. -/
theorem reportAfter_shows (ops : List ReportOp) (hkeys : ∀ op ∈ ops, op.key < 0xe8) :
    ShowsSet (reportAfter ops) (keysAfter ops) (AlwaysFits ops) := by
  induction ops using List.reverseRecOn with
  | nil =>
    refine ⟨keysOk_clear, fun key _ _ => ?_, fun _ key hkey => ?_⟩
    · refine iff_of_false (fun hbit => ?_) (Finset.notMem_empty key)
      exact absurd hbit (by simp [reportAfter, modifierBit, ExtraKeyboardReport.clear])
    · refine iff_of_false (fun hmem => ?_) (Finset.notMem_empty key)
      exact ne_noKey hkey (List.eq_of_mem_replicate (n := 6) hmem)
  | append_singleton ops op ih =>
    have hshows := ih fun op hop => hkeys op (List.mem_append_left _ hop)
    have hfits : AlwaysFits (ops ++ [op]) →
        AlwaysFits ops ∧ (normalKeys (op.onSet (keysAfter ops))).card ≤ extraReportKeyCount := by
      intro h
      have hlast := h _ (List.prefix_refl _)
      rw [keysAfter_concat] at hlast
      exact ⟨h.of_prefix (List.prefix_append _ _), hlast⟩
    rw [reportAfter_concat, keysAfter_concat]
    by_cases hkey : op.key < ExtraKeyboardReport.leftControl
    · exact hshows.normal op hkey hfits
    · exact hshows.modifier op (BitVec.not_lt.mp hkey) fun h => (hfits h).1

/-- A report that shows a set has its keys. -/
theorem ShowsSet.has {r : ExtraKeyboardReport} {s : Finset Word8} {fits : Prop} (h : ShowsSet r s fits) (hf : fits)
    (hlt : key < 0xe8) : r.Has key ↔ key ∈ s := by
  rw [ExtraKeyboardReport.Has]
  split
  · next hle => exact h.modifiers key hle hlt
  · next hnot => exact h.keys hf key (BitVec.not_le.mp hnot)

/-- Toggling a key twice changes nothing in the set. -/
theorem keysAfter_toggle_twice (ops : List ReportOp) (key : Word8) :
    keysAfter (ops ++ [.toggle key] ++ [.toggle key]) = keysAfter ops := by
  rw [keysAfter_concat, keysAfter_concat]
  exact symmDiff_symmDiff_cancel_right _ _

theorem AlwaysFits.toggle_twice (h : AlwaysFits (ops ++ [.toggle key])) :
    AlwaysFits (ops ++ [.toggle key] ++ [.toggle key]) := by
  intro before hbefore
  rcases List.prefix_concat_iff.mp hbefore with rfl | hb
  · have hfits := h ops (List.prefix_append _ _)
    rwa [← keysAfter_toggle_twice ops key] at hfits
  · exact h before hb

/-- **The extra report is a set with toggling**. -/
theorem extraReport_isSet (ops : List ReportOp) (hkeys : ∀ op ∈ ops, op.key < 0xe8) : IsSet ops := by
  have hshows := reportAfter_shows ops hkeys
  refine ⟨hshows.ok.nodup, hshows.modifiers, fun hfits key hlt => hshows.has hfits hlt, ?_⟩
  intro key hlt hfits other hother
  have htwice : ShowsSet (((reportAfter ops).toggle key).toggle key) (keysAfter ops)
      (AlwaysFits (ops ++ [.toggle key] ++ [.toggle key])) := by
    have hall := reportAfter_shows (ops ++ [.toggle key] ++ [.toggle key]) (by
      intro op hop
      simp only [List.append_assoc, List.mem_append, List.mem_singleton] at hop
      rcases hop with hop | rfl | rfl
      · exact hkeys op hop
      · exact hlt
      · exact hlt)
    rwa [keysAfter_toggle_twice, reportAfter_concat, reportAfter_concat] at hall
  rw [htwice.has hfits.toggle_twice hother, hshows.has (hfits.of_prefix (List.prefix_append _ _)) hother]

/-- A key is toggled out of a full report, another one comes into its place, and a modifier is toggled. -/
theorem extraReport_isSet_seven : IsSet [.add 4, .add 5, .add 6, .add 7, .toggle 8, .add 9, .toggle 5,
    .add 0, .toggle 0xe1, .remove 9] :=
  extraReport_isSet _ (by decide)

end Run

end KeyboardFirmware.Vm
