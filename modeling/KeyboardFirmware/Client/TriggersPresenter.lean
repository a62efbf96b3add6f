/-
  `triggerspresenter.cc`: what the user does to the keys of a trigger.

  Toggling puts a key where the order of the others wants it.  Switching the layer maps the keys one by
  one, the place of a key on the layout to the same place on the other layer, and leaves them in the
  order they were in; keys of two layers may change their order that way, or become one key twice.  The
  keys stay in order throughout a session exactly when no switch meets such keys
  (`triggerKeys_ascending_iff`).
-/
import KeyboardFirmware.Client.RoundTrip

namespace KeyboardFirmware.Client

open Lib

/-! ## Layouts -/

/-- `Layout`, the number of its keys.  Without a key the remainder below would trap. -/
structure Layout where
  keyCount : Nat
  keyCount_pos : 0 < keyCount

abbrev PhysicalKeycode := Byte

/-- `Layout::physicalKeycodeToLogical`: the arithmetic is unsigned, a byte of it is returned. -/
def Layout.physicalKeycodeToLogical (layout : Layout) (pKey : PhysicalKeycode) (layer : Nat) :
    LogicalKeycode :=
  Fin.ofNat 256 (layer * layout.keyCount + pKey)

/-- `Layout::logicalKeycodeToPhysical`. -/
def Layout.logicalKeycodeToPhysical (layout : Layout) (lKey : LogicalKeycode) : PhysicalKeycode :=
  Fin.ofNat 256 (lKey % layout.keyCount)

/-! ## Edits -/

/-- `TriggersPresenter::setTriggerLayer`. -/
def Layout.setTriggerLayer (layout : Layout) (t : Trigger) (layer : Nat) : Trigger :=
  { t with
    triggerKeys := t.triggerKeys.map fun x =>
      layout.physicalKeycodeToLogical (layout.logicalKeycodeToPhysical x) layer }

/-- What the user can do to the keys of a trigger. -/
inductive Edit
  | toggleKey (lkey : LogicalKeycode)
  | setLayer (layer : Nat)
  deriving DecidableEq

/-- One edit.  `qLowerBound` is documented for keys in order only; what follows keys out of order is
    as good as any other. -/
def Layout.edit (layout : Layout) (t : Trigger) : Edit → Trigger
  | .toggleKey lkey => t.toggleKeyInTrigger lkey
  | .setLayer layer => layout.setTriggerLayer t layer

/-- A session. -/
def Layout.edits (layout : Layout) (t : Trigger) (es : List Edit) : Trigger := es.foldl layout.edit t

/-- A trigger the firmware can find: the keys ascend and there is room for them. -/
def Findable (t : Trigger) : Prop :=
  t.triggerKeys.Pairwise (· < ·) ∧ t.triggerKeys.length ≤ t.keysPerTrigger

/-- The trigger a session starts with and the keys it was read from: a new one, or one of those in the
    index of a device. -/
inductive Started (k : Nat) : List LogicalKeycode → Trigger → Prop
  | new : Started k [] (Trigger.new k)
  | decoded {index rawData : List Byte} {ts : List Trigger} {t : Trigger} {i : Nat} :
      readTriggers index rawData k = some ts → ts[i]? = some t →
        Started k (keysOf ((index.drop (i * (k + 2))).take k)) t

/-! ## Where a switch keeps the order -/

/-- On this layer the number of the key does not fit a byte. -/
def Layout.Wraps (layout : Layout) (layer : Nat) (x : LogicalKeycode) : Prop :=
  256 ≤ layer * layout.keyCount % 256 + x % layout.keyCount

/-- The keys stand on the layout in the order they are listed, at different places; where numbers do
    not fit a byte, those of the keys in front do not. -/
def Layout.InPlaceOrder (layout : Layout) (layer : Nat) (keys : List LogicalKeycode) : Prop :=
  keys.Pairwise fun a b => layout.Wraps layer a ∧ ¬ layout.Wraps layer b ∨
    (layout.Wraps layer a ↔ layout.Wraps layer b) ∧ a % layout.keyCount < b % layout.keyCount

instance (layout : Layout) (layer : Nat) (x : LogicalKeycode) : Decidable (layout.Wraps layer x) :=
  inferInstanceAs (Decidable (_ ≤ _))

instance (layout : Layout) (layer : Nat) (keys : List LogicalKeycode) :
    Decidable (layout.InPlaceOrder layer keys) :=
  inferInstanceAs (Decidable (keys.Pairwise _))

variable {layout : Layout} {layer k : Nat} {t : Trigger}

theorem switched_val (layout : Layout) (layer : Nat) (x : LogicalKeycode) :
    (layout.physicalKeycodeToLogical (layout.logicalKeycodeToPhysical x) layer).val =
      (layer * layout.keyCount % 256 + x % layout.keyCount) % 256 := by
  have hplace : x % layout.keyCount < 256 := (Nat.mod_le _ _).trans_lt x.isLt
  have hphysical : (layout.logicalKeycodeToPhysical x).val = x % layout.keyCount :=
    Nat.mod_eq_of_lt hplace
  rw [Layout.physicalKeycodeToLogical, Fin.val_ofNat, hphysical, Nat.add_mod,
    Nat.mod_eq_of_lt hplace]

/-- Two keys are in order behind the switch. -/
theorem switched_lt_iff (a b : LogicalKeycode) :
    layout.physicalKeycodeToLogical (layout.logicalKeycodeToPhysical a) layer <
        layout.physicalKeycodeToLogical (layout.logicalKeycodeToPhysical b) layer ↔
      layout.Wraps layer a ∧ ¬ layout.Wraps layer b ∨
        (layout.Wraps layer a ↔ layout.Wraps layer b) ∧ a % layout.keyCount < b % layout.keyCount := by
  have ha : a % layout.keyCount < 256 := (Nat.mod_le _ _).trans_lt a.isLt
  have hb : b % layout.keyCount < 256 := (Nat.mod_le _ _).trans_lt b.isLt
  have hbase : layer * layout.keyCount % 256 < 256 := Nat.mod_lt _ (by decide)
  rw [Fin.lt_def, switched_val, switched_val, Layout.Wraps, Layout.Wraps]
  omega

theorem setTriggerLayer_ascending_iff :
    (layout.setTriggerLayer t layer).triggerKeys.Pairwise (· < ·) ↔
      layout.InPlaceOrder layer t.triggerKeys := by
  rw [Layout.setTriggerLayer, List.pairwise_map, Layout.InPlaceOrder]
  simp only [switched_lt_iff]

/-! ## One edit -/

theorem Findable.toggle (h : Findable t) (lkey : LogicalKeycode) :
    Findable (t.toggleKeyInTrigger lkey) := by
  obtain ⟨hsorted, hlength⟩ := h
  rw [Trigger.toggleKeyInTrigger]
  split
  · exact ⟨hsorted.filter _, (List.length_filter_le _ _).trans hlength⟩
  next hnot =>
    split
    next hroom =>
      refine ⟨pairwise_orderedInsert hsorted hnot, ?_⟩
      rw [List.orderedInsert_length]
      exact hroom
    · exact ⟨hsorted, hlength⟩

/-- **One edit**: toggling keeps a trigger findable, a switch does where the places are in order. -/
theorem findable_edit_iff (h : Findable t) (e : Edit) :
    Findable (layout.edit t e) ↔ ∀ layer, e = .setLayer layer → layout.InPlaceOrder layer t.triggerKeys := by
  cases e with
  | toggleKey lkey => exact iff_of_true (h.toggle lkey) fun layer heq => nomatch heq
  | setLayer layer =>
    have hlength : (layout.setTriggerLayer t layer).triggerKeys.length ≤ t.keysPerTrigger := by
      rw [Layout.setTriggerLayer, List.length_map]
      exact h.2
    have hiff : Findable (layout.edit t (.setLayer layer)) ↔ layout.InPlaceOrder layer t.triggerKeys :=
      (and_iff_left hlength).trans setTriggerLayer_ascending_iff
    rw [hiff]
    constructor
    · intro hplaces other heq
      obtain rfl := Edit.setLayer.inj heq
      exact hplaces
    · intro hplaces
      exact hplaces layer rfl

/-! ## Sessions -/

theorem edits_concat (layout : Layout) (t : Trigger) (done : List Edit) (e : Edit) :
    layout.edits t (done ++ [e]) = layout.edit (layout.edits t done) e := by
  simp only [Layout.edits, List.foldl_append, List.foldl_cons, List.foldl_nil]

/-- A trigger is findable throughout a session that it was findable before. -/
theorem findable_edits_iff (es : List Edit) :
    (∀ done, done <+: es → Findable (layout.edits t done)) ↔
      Findable t ∧ ∀ done layer, done ++ [.setLayer layer] <+: es →
        layout.InPlaceOrder layer (layout.edits t done).triggerKeys := by
  constructor
  · intro h
    refine ⟨h [] List.nil_prefix, fun done layer hdone => ?_⟩
    have hbefore := h done ((List.prefix_append done _).trans hdone)
    have hafter := h _ hdone
    rw [edits_concat] at hafter
    exact (findable_edit_iff hbefore _).mp hafter layer rfl
  · rintro ⟨hstart, hswitches⟩ done hdone
    induction done using List.reverseRecOn with
    | nil => exact hstart
    | append_singleton done e ih =>
      have hbefore := ih ((List.prefix_append done _).trans hdone)
      rw [edits_concat]
      refine (findable_edit_iff hbefore e).mpr fun layer heq => ?_
      subst heq
      exact hswitches done layer hdone

/-! ## Where sessions start -/

/-- A trigger is findable at the start when no key is named twice. -/
theorem Started.findable_iff {keys : List LogicalKeycode} (h : Started k keys t) :
    Findable t ↔ keys.Nodup := by
  cases h with
  | new => exact iff_of_true ⟨List.Pairwise.nil, Nat.zero_le _⟩ List.nodup_nil
  | decoded hread hget =>
    have hfits := readTriggers_fits hread t (List.mem_of_getElem? hget)
    obtain ⟨-, hkeys⟩ := readTrigger_spec (readTrigger_of_readFrom _ 0 _ hread hget)
    rw [Nat.zero_add] at hkeys
    obtain ⟨-, hperm⟩ := readKeys_spec _ _ _ _ List.Pairwise.nil hkeys
    rw [List.append_nil] at hperm
    rw [← hperm.nodup_iff]
    constructor
    · intro hfindable
      exact hfindable.1.imp fun hlt => ne_of_lt hlt
    · intro hnodup
      refine ⟨?_, hfits.perTrigger.symm ▸ hfits.length_le⟩
      exact (hfits.sorted.and hnodup).imp fun ⟨hle, hne⟩ => lt_of_le_of_ne hle hne

/-- **The keys of a trigger stay in order throughout a session**, and there is room for them, exactly
    when it starts with no key twice and every switch of the layer finds the keys placed in the order
    they are listed. -/
theorem triggerKeys_ascending_iff (layout : Layout) (keys : List LogicalKeycode) (t : Trigger)
    (es : List Edit) (hstart : Started k keys t) :
    (∀ done, done <+: es → Findable (layout.edits t done)) ↔
      keys.Nodup ∧ ∀ done layer, done ++ [.setLayer layer] <+: es →
        layout.InPlaceOrder layer (layout.edits t done).triggerKeys := by
  rw [findable_edits_iff, hstart.findable_iff]

/-- Keys of the first layer, moved to the second. -/
theorem triggerKeys_ascending_iff_twoKeys : Findable
    ((⟨84, by decide⟩ : Layout).edits (.new 4) [.toggleKey 9, .toggleKey 5, .setLayer 1]) := by
  refine (triggerKeys_ascending_iff _ [] _ _ .new).mpr ⟨List.nodup_nil, fun done layer hdone => ?_⟩ _
    (List.prefix_refl _)
  obtain ⟨rest, heq⟩ := hdone
  rcases done with _ | ⟨e₁, _ | ⟨e₂, _ | ⟨e₃, done⟩⟩⟩
  · simp at heq
  · simp at heq
  · obtain ⟨rfl, rfl, rfl, -⟩ : e₁ = .toggleKey 9 ∧ e₂ = .toggleKey 5 ∧ layer = 1 ∧ rest = [] := by
      simpa using heq
    decide
  · simp at heq

/-- **A switch of the layer breaks the order**: the sixth key of the first layer and the fourth of the
    second, moved to the first layer. -/
theorem setTriggerLayer_breaks_order :
    ¬ ∀ (layout : Layout) (k : Nat) (keys : List LogicalKeycode) (t : Trigger) (es : List Edit),
      Started k keys t → ∀ done, done <+: es → Findable (layout.edits t done) := by
  intro h
  have hlast := h ⟨84, by decide⟩ 4 [] _ [.toggleKey 5, .toggleKey 87, .setLayer 0] .new _
    (List.prefix_refl _)
  exact absurd hlast.1 (by decide)

end KeyboardFirmware.Client
