/-
  Debouncing over whole runs.

  The scans are kept in a ring of bitfields (`Lib.Ring`), which starts with all keys up.  So what
  `keystate_update` combines with its masks are the last scans, as many as the debounce length says
  (`DebounceOk`), and the debounced bit of a key follows them and its own old value.
-/
import KeyboardFirmware.Keystate.Table
import KeyboardFirmware.Lib.Ring

namespace KeyboardFirmware

open Lib

variable {hw : KeystateHardware}

/-- The scans among some steps, in order. -/
def scansOf (steps : List KeyStep) : List Scan :=
  steps.filterMap fun
    | .update scan => some scan
    | .hide _ => none

/-- The keys that were read as pressed in some scans, the newest scan first. -/
def readings (hw : KeystateHardware) (scans : List Scan) : List (LogicalKeycode → Bool) :=
  (scans.map fun scan => scanMatrix hw scan.readColumn).reverse

/-- Before start-up, all keys count as up. -/
def allUp : LogicalKeycode → Bool := fun _ => false

/-- The key was down `i` scans ago; the last scan is scan 0. -/
def wasDown (hw : KeystateHardware) (scans : List Scan) (pKey : LogicalKeycode) (i : Nat) : Bool :=
  ago allUp (readings hw scans) i pKey

/-- The ring of a debounce length holds the last scans. -/
def DebounceOk (hw : KeystateHardware) (n : Nat) (scans : List Scan) (ks : Keystate) : Prop :=
  Ring n allUp (readings hw scans) ks.activeDebounceIndex ks.debounceBitfields

theorem readings_concat (scans : List Scan) (scan : Scan) :
    readings hw (scans ++ [scan]) = scanMatrix hw scan.readColumn :: readings hw scans := by
  rw [readings, List.map_append, List.reverse_append]
  rfl

variable {n : Nat} {ks : Keystate} {scans : List Scan} {scan : Scan} {pKey : LogicalKeycode}

/-! ## One scan -/

/-- A scan is written into the ring. -/
theorem DebounceOk.scanAndDebounce (h : DebounceOk hw n scans ks) (hlen : scan.debounceLen = n) :
    Ring n allUp (readings hw (scans ++ [scan])) (scanAndDebounce hw ks scan).activeDebounceIndex
      (KeyboardFirmware.scanAndDebounce hw ks scan).debounceBitfields := by
  subst hlen
  rw [readings_concat]
  exact h.push _

/-- The and of the words of the ring: the key was down in every one of the last scans. -/
theorem DebounceOk.allTimeActive (h : DebounceOk hw n scans ks) (hlen : scan.debounceLen = n)
    (pKey : LogicalKeycode) :
    ((List.range scan.debounceLen).all fun i =>
        (KeyboardFirmware.scanAndDebounce hw ks scan).debounceBitfields i pKey) = true ↔
      ∀ i < n, wasDown hw (scans ++ [scan]) pKey i = true := by
  have hring := (h.scanAndDebounce hlen).forall_iff fun reading => reading pKey = true
  subst hlen
  rw [List.all_eq_true]
  simp only [List.mem_range]
  exact hring

/-- The or of the words: it was up in none of them only if it was up in all. -/
theorem DebounceOk.anyTimeActive (h : DebounceOk hw n scans ks) (hlen : scan.debounceLen = n)
    (pKey : LogicalKeycode) :
    ((List.range scan.debounceLen).any fun i =>
        (KeyboardFirmware.scanAndDebounce hw ks scan).debounceBitfields i pKey) = false ↔
      ∀ i < n, wasDown hw (scans ++ [scan]) pKey i = false := by
  have hring := (h.scanAndDebounce hlen).forall_iff fun reading => reading pKey = false
  subst hlen
  rw [List.any_eq_false]
  simp only [List.mem_range, Bool.not_eq_true]
  exact hring

/-- What a scan does to the debounced bit of a key: the last scans decide where they agree. -/
structure Debounces (n : Nat) (down : Nat → Bool) (old new changedOn : Bool) : Prop where
  pressed : (∀ i < n, down i = true) → new = true
  released : (∀ i < n, down i = false) → new = false
  bouncing : ¬ (∀ i < n, down i = true) → ¬ (∀ i < n, down i = false) → new = old
  changedOn : changedOn = true ↔ old = false ∧ new = true

/-- **One scan debounces every key.** -/
theorem DebounceOk.debounces (h : DebounceOk hw n scans ks) (hlen : scan.debounceLen = n)
    (pKey : LogicalKeycode) :
    Debounces n (wasDown hw (scans ++ [scan]) pKey) (ks.debouncedBitfield pKey)
      ((KeyboardFirmware.scanAndDebounce hw ks scan).debouncedBitfield pKey)
      ((KeyboardFirmware.scanAndDebounce hw ks scan).debouncedOnBitfield pKey) := by
  have hall := h.allTimeActive hlen pKey
  have hany := h.anyTimeActive hlen pKey
  have hpos : 0 < n := hlen ▸ scan.len_pos
  -- a key that was down in all of some scans was down in one of them
  have hsome : (∀ i < n, wasDown hw (scans ++ [scan]) pKey i = true) →
      ¬ ∀ i < n, wasDown hw (scans ++ [scan]) pKey i = false := by
    intro hdown hup
    exact Bool.false_ne_true ((hup 0 hpos).symm.trans (hdown 0 hpos))
  generalize hallTime : (List.range scan.debounceLen).all (fun i =>
    (KeyboardFirmware.scanAndDebounce hw ks scan).debounceBitfields i pKey) = allTimeActive at hall
  generalize hanyTime : (List.range scan.debounceLen).any (fun i =>
    (KeyboardFirmware.scanAndDebounce hw ks scan).debounceBitfields i pKey) = anyTimeActive at hany
  have hnew : (KeyboardFirmware.scanAndDebounce hw ks scan).debouncedBitfield pKey =
      debounce (ks.debouncedBitfield pKey) allTimeActive anyTimeActive := by
    rw [← hallTime, ← hanyTime]
    rfl
  have hon : (KeyboardFirmware.scanAndDebounce hw ks scan).debouncedOnBitfield pKey =
      (!ks.debouncedBitfield pKey && allTimeActive) := by
    rw [← hallTime]
    rfl
  have hboth : allTimeActive = true → anyTimeActive = true := by
    intro htrue
    refine Bool.eq_true_of_not_eq_false fun hfalse => ?_
    exact hsome (hall.mp htrue) (hany.mp hfalse)
  rw [hnew, hon]
  constructor
  · intro hdown
    have htrue := hall.mpr hdown
    rw [htrue, hboth htrue, debounce, Bool.or_true, Bool.and_true]
  · intro hup
    rw [hany.mpr hup, debounce, Bool.and_false]
  · intro hdown hup
    have hfalse : allTimeActive = false := Bool.eq_false_of_not_eq_true fun h => hdown (hall.mp h)
    have htrue : anyTimeActive = true := Bool.eq_true_of_not_eq_false fun h => hup (hany.mp h)
    rw [hfalse, htrue, debounce, Bool.or_false, Bool.and_true]
  · cases allTimeActive with
    | false => cases ks.debouncedBitfield pKey <;> simp [debounce]
    | true => simp [debounce, hboth rfl]

/-! ## Runs -/

theorem debounceOk_init (hw : KeystateHardware) (hn : 0 < n) : DebounceOk hw n [] keystateInit := ring_start hn allUp

theorem DebounceOk.run : ∀ {steps : List KeyStep} {scans : List Scan} {ks : Keystate},
    DebounceOk hw n scans ks → (∀ scan ∈ scansOf steps, scan.debounceLen = n) →
      DebounceOk hw n (scans ++ scansOf steps) (runKeys hw ks steps).1
  | [], scans, ks, h, _ => by
    rw [scansOf, List.filterMap_nil, List.append_nil]
    exact h
  | .update scan :: steps, scans, ks, h, hlen => by
    have hscans : scansOf (.update scan :: steps) = scan :: scansOf steps := rfl
    rw [hscans] at hlen ⊢
    rw [List.append_cons]
    have hone : DebounceOk hw n (scans ++ [scan]) (keystateUpdate hw ks scan).1 :=
      h.scanAndDebounce (hlen scan List.mem_cons_self)
    exact hone.run fun scan' hscan' => hlen scan' (List.mem_cons_of_mem _ hscan')
  | .hide lKey :: steps, scans, ks, h, hlen => by
    have hone : DebounceOk hw n scans (keystateHideKey hw ks lKey) := h
    have hrest : ∀ scan ∈ scansOf steps, scan.debounceLen = n := hlen
    exact hone.run hrest

/-- **Debouncing**: from start-up on and with a fixed debounce length, after each scan a key is on if it
    was down in each of the last scans, off if it was up in each of them, and as it was otherwise; and
    the keys reported as newly on are those that changed from off to on. -/
theorem keystateUpdate_debounces (hw : KeystateHardware) (n : Nat) (steps : List KeyStep) (scan : Scan)
    (hlen : ∀ s ∈ scansOf steps ++ [scan], s.debounceLen = n) (pKey : LogicalKeycode) :
    Debounces n (wasDown hw (scansOf steps ++ [scan]) pKey)
      ((runKeys hw keystateInit steps).1.debouncedBitfield pKey)
      ((keystateUpdate hw (runKeys hw keystateInit steps).1 scan).1.debouncedBitfield pKey)
      ((scanAndDebounce hw (runKeys hw keystateInit steps).1 scan).debouncedOnBitfield pKey) := by
  have hlast : scan.debounceLen = n := hlen scan (List.mem_append_right _ List.mem_cons_self)
  have hpos : 0 < n := hlast ▸ scan.len_pos
  have hrun := (debounceOk_init hw hpos).run fun s hs => hlen s (List.mem_append_left _ hs)
  rw [List.nil_append] at hrun
  exact hrun.debounces hlast pKey

/-- A scan of the K80CS with debounce length 2. -/
def bounceScan (keys : List LogicalKeycode) : Scan :=
  ⟨2, Nat.zero_lt_two, by decide, fun lKey => lKey, pressing k80csKeystate keys⟩

/-- A key that bounces once on its way down. -/
theorem keystateUpdate_debounces_bounce :
    Debounces 2 (wasDown k80csKeystate [bounceScan [7], bounceScan [], bounceScan [7], bounceScan [7]] 7)
      false true true :=
  keystateUpdate_debounces k80csKeystate 2
    [.update (bounceScan [7]), .update (bounceScan []), .update (bounceScan [7])] (bounceScan [7])
    (by simp [scansOf, bounceScan]) 7

end KeyboardFirmware
