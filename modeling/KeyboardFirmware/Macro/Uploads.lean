/-
  Uploads that arrive in the middle of a recording step.

  The host may write the macro index or the macro storage, or reset both, and the firmware takes the
  request at whatever keep-alive comes next.  A step is atomic with respect to a request when the two
  memories come out as in one of the two orders.  That is so where what is left of the step after the
  keep-alive has nothing to do with what was uploaded, or what came before has not
  (`atomic_index`, `atomic_storage`, `atomic_reset`).
-/
import KeyboardFirmware.Macro.KeepAlive

namespace KeyboardFirmware

open Lib

/-! ## Requests and steps -/

/-- The vendor requests that write the macro index, the macro storage, or both. -/
inductive Request
  | writeIndex (contents : MacroIndex)
  | writeStorage (contents : Storage)
  | reset

/-- What a request does: `WRITE_MACRO_INDEX` and `WRITE_MACRO_STORAGE` with the whole of the area,
    `RESET_FULLY` as far as it concerns the macros. -/
def Request.apply (hw : Hardware) : Request → MacroStore → MacroStore
  | .writeIndex contents, st =>
    { st with index := fun i => if i < hw.macroIndexCount then contents i else st.index i }
  | .writeStorage contents, st =>
    { st with mem := fun a => if a < hw.macrosSize then contents a else st.mem a }
  | .reset, st =>
    { st with index := macroIdxResetDefaults hw st.index, mem := macrosResetDefaults hw st.mem }

/-- The contents of the upload are those of a store that satisfies the invariant. -/
def Request.Valid (hw : Hardware) : Request → Prop
  | .writeIndex contents => ∃ mem, StoreOk hw ⟨contents, mem, none⟩
  | .writeStorage contents => ∃ index, StoreOk hw ⟨index, contents, none⟩
  | .reset => True

/-- One step of a recording. -/
inductive StoreOp
  | start (key : KeyBuffer)
  | append (event : HidKeycode)
  | commit
  | abort

/-- The step in one piece. -/
def StoreOp.apply (hw : Hardware) : StoreOp → MacroStore → MacroStore
  | .start key, st => (macrosStartMacro hw st key.key).2
  | .append event, st => macrosAppend st event
  | .commit, st => macrosCommitMacro hw st
  | .abort, st => macrosAbortMacro hw st

/-- The step with its keep-alives. -/
def StoreOp.prog (hw : Hardware) (ps : PagedStorage) : StoreOp → Prog MacroStore Unit
  | .start key => (startProg hw ps key.key).bind fun _ => .done ()
  | .append event => appendProg ps event
  | .commit => commitProg hw ps
  | .abort => abortProg hw

/-- Where the steps happen: a start at a store that satisfies the invariant, the others during a
    recording whose events fit the area. -/
def StoreOp.Ready (hw : Hardware) (st : MacroStore) : StoreOp → Prop
  | .start _ => StoreOk hw st
  | _ => ∃ n recs k appended entry, RecordingInv hw st n recs k appended entry ∧
    (appended ≠ [] → eventsOf (macros (encode recs).length) + appended.length ≤ hw.macrosSize)

/-- The same macro index and macro storage. -/
def SameStores (a b : MacroStore) : Prop := a.index = b.index ∧ a.mem = b.mem

/-- The step is atomic with respect to the request: at whatever keep-alive it is delivered, the macro
    index and storage come out as if one had happened after the other. -/
def Atomic (hw : Hardware) (ps : PagedStorage) (st : MacroStore) (op : StoreOp) (req : Request) :
    Prop :=
  ∀ n result, (op.prog hw ps).delivered (req.apply hw) n st = some ((), result) →
    SameStores result (req.apply hw (op.apply hw st)) ∨
      SameStores result (op.apply hw (req.apply hw st))

/-! ## The steps that leave nothing open -/

/-- Entry `i` is the last one in use. -/
def LastInUse (hw : Hardware) (index : MacroIndex) (i : Nat) : Prop :=
  i = hw.macroIndexCount - 1 ∨ (index (i + 1)).key.head = noKey

/-- The recording that is on has no events. -/
def NothingRecorded (st : MacroStore) : Prop :=
  ∀ rs, st.recordingState = some rs → rs.cursor = eventsOf rs.macroData

/-- The entry of the recording that is on is the last one in use. -/
def RecordsLast (hw : Hardware) (st : MacroStore) : Prop :=
  ∀ rs, st.recordingState = some rs → LastInUse hw st.index rs.indexEntry

/-- The key has a program. -/
def HasProgram (hw : Hardware) (st : MacroStore) (key : MacroIdxKey) : Prop :=
  ∃ entry, macroIdxLookup hw st.index key = some entry ∧
    (macroIdxGetData st.index entry).type = .programEntry

/-- The step has nothing more to do to the index after a keep-alive that may have written it. -/
def StoreOp.SparesIndex (hw : Hardware) (st : MacroStore) : StoreOp → Prop
  | .start key => HasProgram hw st key.key ∨
      macroIdxLookup hw st.index key.key = none ∧
        (st.index (hw.macroIndexCount - 1)).key.head ≠ noKey
  | .append _ => True
  | .commit => NothingRecorded st → RecordsLast hw st
  | .abort => RecordsLast hw st

/-- The same for the macro storage. -/
def StoreOp.SparesStorage (hw : Hardware) (st : MacroStore) : StoreOp → Prop
  | .start key => HasProgram hw st key.key ∨ macroIdxLookup hw st.index key.key = none
  | .append _ => True
  | .commit => NothingRecorded st
  | .abort => True

variable {hw : Hardware} {ps : PagedStorage} {st : MacroStore} {op : StoreOp} {req : Request}

/-- With nothing delivered the two ways to write a step agree. -/
theorem StoreOp.prog_run (h : op.Ready hw st) : (op.prog hw ps).run st = ((), op.apply hw st) := by
  cases op with
  | start key =>
    obtain ⟨n, recs, hinv, -⟩ := h
    show ((startProg hw ps key.key).bind fun _ => .done ()).run st = _
    rw [Prog.run_bind, key.key_eq, startProg_run hinv key.trigger]
    show ((), (macrosStartMacro hw st key.trigger.key).2) = ((), (macrosStartMacro hw st key.key).2)
    rw [key.key_eq]
  | append event => exact appendProg_run event
  | commit => exact commitProg_run
  | abort => exact abortProg_run

/-- Nothing is left to do but to set the recording state. -/
def Quiet (rest : Prog MacroStore Unit) : Prop :=
  ∃ rs, rest = .update (setRecordingState rs) (.done ())

theorem Quiet.independent {rest : Prog MacroStore Unit} (h : Quiet rest) (req : Request) :
    rest.Independent (req.apply hw) := by
  obtain ⟨rs, rfl⟩ := h
  refine ⟨fun s => ?_, trivial⟩
  cases req <;> rfl

/-- A request that comes when what is left does not care comes after the step. -/
theorem serial_of_independent (h : op.Ready hw st) {n : Nat} {rest : Prog MacroStore Unit}
    {s result : MacroStore} (hat : (op.prog hw ps).atYield n st = some (rest, s))
    (hrest : rest.Independent (req.apply hw))
    (hresult : (op.prog hw ps).delivered (req.apply hw) n st = some ((), result)) :
    result = req.apply hw (op.apply hw st) := by
  rw [Prog.delivered_after hat hrest, StoreOp.prog_run h] at hresult
  exact (congrArg Prod.snd (Option.some.inj hresult)).symm

theorem delivered_atYield {n : Nat} {p : Prog MacroStore Unit} {f : MacroStore → MacroStore}
    {s : MacroStore} {result : Unit × MacroStore} (h : p.delivered f n s = some result) :
    ∃ rest s', p.atYield n s = some (rest, s') ∧ rest.run (f s') = result := by
  rw [Prog.delivered, Option.map_eq_some_iff] at h
  obtain ⟨⟨rest, s'⟩, hat, hrun⟩ := h
  exact ⟨rest, s', hat, hrun⟩

theorem atomic_of_independent (h : op.Ready hw st)
    (hrest : ∀ n rest s, (op.prog hw ps).atYield n st = some (rest, s) →
      rest.Independent (req.apply hw)) : Atomic hw ps st op req := by
  intro n result hresult
  obtain ⟨rest, s, hat, -⟩ := delivered_atYield hresult
  rw [serial_of_independent h hat (hrest n rest s hat) hresult]
  exact Or.inl ⟨rfl, rfl⟩

/-! ## Steps that are atomic -/

theorem atYield_done {σ α : Type} {a : α} {n : Nat} {s s' : σ} {rest : Prog σ α}
    (h : (Prog.done a).atYield n s = some (rest, s')) : False := (nomatch h)

/-- The last keep-alive of a start leaves nothing to do. -/
theorem recordIntoProg_quiet {entry n : Nat} {rest : Prog MacroStore Unit} {s s' : MacroStore}
    (h : ((recordIntoProg entry).bind fun _ => Prog.done ()).atYield n s = some (rest, s')) :
    Quiet rest := by
  cases n with
  | zero =>
    obtain ⟨rfl, -⟩ := Prod.mk.inj (Option.some.inj h)
    exact ⟨_, rfl⟩
  | succ n => exact (nomatch h)

theorem appendProg_quiet {event : HidKeycode} {n : Nat} {rest : Prog MacroStore Unit}
    {s s' : MacroStore} (h : (appendProg ps event).atYield n s = some (rest, s')) : Quiet rest := by
  rw [appendProg, Prog.atYield] at h
  cases hs : s.recordingState with
  | none =>
    rw [hs] at h
    cases h
  | some rs =>
    rw [hs] at h
    cases n with
    | zero =>
      obtain ⟨rfl, -⟩ := Prod.mk.inj (Option.some.inj h)
      exact ⟨_, rfl⟩
    | succ n => cases h

/-- Removing the last entry in use does not come to a keep-alive. -/
theorem removeProg_last {mi : Nat} {s : MacroStore} (h : LastInUse hw s.index mi)
    (k : Unit → Prog MacroStore Unit) (hk : ∀ n s, (k ()).atYield n s = none) (n : Nat) :
    ((removeProg hw mi).bind k).atYield n s = none := by
  rw [removeProg]
  cases hfuel : hw.macroIndexCount - mi with
  | zero => exact hk n s
  | succ fuel =>
    show ((if (if mi = hw.macroIndexCount - 1 then emptyEntry else s.index (mi + 1)).key.head = noKey
      then Prog.done () else .yield (removeLoopProg hw fuel (mi + 1))).bind k).atYield n _ = none
    have hempty : (if mi = hw.macroIndexCount - 1 then emptyEntry
        else s.index (mi + 1)).key.head = noKey := by
      split
      · rfl
      · next hne => exact h.resolve_left hne
    rw [if_pos hempty]
    exact hk n _

/-- A start on a key that has a program only writes the entry. -/
theorem startProg_program {key : MacroIdxKey} (h : HasProgram hw st key) {n : Nat}
    {rest : Prog MacroStore Unit} {s : MacroStore}
    (hat : ((startProg hw ps key).bind fun _ => Prog.done ()).atYield n st = some (rest, s)) :
    Quiet rest := by
  obtain ⟨entry, hl, htype⟩ := h
  rw [startProg] at hat
  simp only [Prog.bind, Prog.atYield, hl, deleteProg, htype] at hat
  exact recordIntoProg_quiet hat

/-- A start that is refused does not come to a keep-alive. -/
theorem startProg_refused {key : MacroIdxKey} (hl : macroIdxLookup hw st.index key = none)
    (hfull : (st.index (hw.macroIndexCount - 1)).key.head ≠ noKey) (n : Nat) :
    ((startProg hw ps key).bind fun _ => Prog.done ()).atYield n st = none := by
  rw [startProg]
  simp only [Prog.bind, Prog.atYield, hl, createProg, if_pos hfull]

/-- What a start does once a new entry has been created, or refused. -/
def afterCreate (r : Option Nat) : Prog MacroStore Unit :=
  (match r with
    | some entry => recordIntoProg entry
    | none => .update (setRecordingState none) <| .done false).bind fun _ => .done ()

theorem startProg_new {key : KeyBuffer} (hl : macroIdxLookup hw st.index key.key = none) (n : Nat) :
    ((StoreOp.start key).prog hw ps).atYield n st =
      ((createProg hw key.key).bind afterCreate).atYield n st := by
  have hassoc : ((createProg hw key.key).bind afterCreate) = (((createProg hw key.key).bind fun r =>
      match r with
      | some entry => recordIntoProg entry
      | none => .update (setRecordingState none) <| .done false).bind fun _ => .done ()) :=
    (Prog.bind_assoc ..).symm
  rw [hassoc]
  simp only [StoreOp.prog, startProg, Prog.bind, Prog.atYield]
  generalize macroIdxLookup hw st.index key.key = found at hl
  subst hl
  rfl

theorem startNew_run (st : MacroStore) {key : KeyBuffer} (hl : macroIdxLookup hw st.index key.key = none) :
    ((createProg hw key.key).bind afterCreate).run st = ((), (StoreOp.start key).apply hw st) := by
  rw [Prog.run_bind, createProg_run, StoreOp.apply, macrosStartMacro, startEntry, hl]
  cases macroIdxCreate hw st.index key.key <;> rfl

theorem afterCreate_quiet {r : Option Nat} {n : Nat} {rest : Prog MacroStore Unit}
    {s s' : MacroStore} (h : (afterCreate r).atYield n s = some (rest, s')) : Quiet rest := by
  cases r with
  | some entry => exact recordIntoProg_quiet h
  | none => exact (nomatch h)

/-- **Nothing open**: a step that spares both memories leaves nothing to do after a keep-alive. -/
theorem quiet_of_spares (hindex : op.SparesIndex hw st) (hstorage : op.SparesStorage hw st)
    {n : Nat} {rest : Prog MacroStore Unit} {s : MacroStore}
    (hat : (op.prog hw ps).atYield n st = some (rest, s)) : Quiet rest := by
  cases op with
  | start key =>
    rcases hindex with hprogram | ⟨hl, hfull⟩
    · exact startProg_program hprogram hat
    · rw [StoreOp.prog, startProg_refused hl hfull] at hat
      cases hat
  | append event => exact appendProg_quiet hat
  | commit =>
    rw [StoreOp.prog, commitProg, Prog.atYield] at hat
    cases hs : st.recordingState with
    | none =>
      rw [hs] at hat
      cases hat
    | some rs =>
      rw [hs] at hat
      have hempty : (Fin.ofNat 65536 (rs.cursor - eventsOf rs.macroData) : Fin 65536) = 0 := by
        rw [hstorage rs hs, Nat.sub_self]
        rfl
      simp only [hempty, if_true] at hat
      rw [removeProg_last (hindex hstorage rs hs) _ fun _ _ => rfl] at hat
      cases hat
  | abort =>
    rw [StoreOp.prog, abortProg, Prog.atYield] at hat
    cases hs : st.recordingState with
    | none =>
      rw [hs] at hat
      cases hat
    | some rs =>
      rw [hs] at hat
      simp only at hat
      rw [removeProg_last (hindex rs hs) _ fun _ _ => rfl] at hat
      cases hat

/-- Writes to the storage are independent of uploads to the index. -/
theorem storageWriteProg_independent (contents : MacroIndex) : ∀ (fuel dst : Nat) (data : List Byte),
    (storageWriteProg ps fuel dst data).Independent (Request.apply hw (.writeIndex contents)) := by
  intro fuel
  induction fuel with
  | zero => exact fun _ _ => trivial
  | succ fuel ih =>
    intro dst data
    cases data with
    | nil => trivial
    | cons b data => exact ⟨fun _ => rfl, ih _ _⟩

/-- Moves within the index are independent of uploads to the storage. -/
theorem removeLoopProg_independent (contents : Storage) : ∀ fuel i : Nat,
    (removeLoopProg hw fuel i).Independent (Request.apply hw (.writeStorage contents)) := by
  intro fuel
  induction fuel with
  | zero => exact fun _ => trivial
  | succ fuel ih =>
    intro i
    refine ⟨fun _ => rfl, fun s => ⟨fun _ => rfl, ?_⟩⟩
    generalize (if i = hw.macroIndexCount - 1 then emptyEntry else s.index (i + 1)) = tmp
    split
    · trivial
    · exact ih (i + 1)

theorem createLoopProg_independent (contents : Storage) (key : MacroIdxKey) : ∀ i : Nat,
    (createLoopProg key i).Independent (Request.apply hw (.writeStorage contents)) := by
  intro i
  induction i with
  | zero => trivial
  | succ i ih =>
    refine ⟨fun _ => rfl, fun s => ?_⟩
    dsimp only
    split
    · trivial
    · split
      · exact ih
      · exact ⟨fun _ => rfl, ih⟩

theorem createProg_independent (contents : Storage) (key : MacroIdxKey) :
    (createProg hw key).Independent (Request.apply hw (.writeStorage contents)) := by
  refine ⟨fun _ => rfl, fun s => ?_⟩
  dsimp only
  split
  · trivial
  · exact (createLoopProg_independent contents key _).bind fun r => ⟨fun _ => rfl, trivial⟩

/-- **Uploads to the index** find the steps that spare it. -/
theorem atomic_index (h : op.Ready hw st) (hspares : op.SparesIndex hw st) (contents : MacroIndex) :
    Atomic hw ps st op (.writeIndex contents) := by
  refine atomic_of_independent h fun n rest s hat => ?_
  by_cases hstorage : op.SparesStorage hw st
  · exact (quiet_of_spares hspares hstorage hat).independent _
  · cases op with
    | start key =>
      exact absurd (hspares.imp id And.left) hstorage
    | append event => exact absurd trivial hstorage
    | commit =>
      -- the length and the end offset are written, the index is left alone
      obtain ⟨n', recs, k, appended, entry, hrec, hroom⟩ := h
      have hlen : (Fin.ofNat 65536 (eventsOf (macros (encode recs).length) + appended.length
          - eventsOf (macros (encode recs).length)) : Fin 65536) ≠ 0 := by
        intro hzero
        refine hstorage fun rs hrs => ?_
        rw [hrec.state] at hrs
        obtain rfl := Option.some.inj hrs
        by_contra hne
        have hsome : appended ≠ [] := fun hnil => hne (by rw [hnil]; rfl)
        have hfit := hroom hsome
        have hsize := hw.size_le
        have hpos := List.length_pos_iff.mpr hsome
        rw [Nat.add_sub_cancel_left, Fin.ext_iff, Fin.val_ofNat] at hzero
        have hval : ((0 : Fin 65536) : Nat) = 0 := rfl
        rw [hval] at hzero
        omega
      rw [StoreOp.prog, commitProg, Prog.atYield, hrec.state] at hat
      simp only [hlen, if_false] at hat
      refine Prog.Independent.atYield ?_ hat
      refine Prog.Independent.bind ?_ fun _ => ⟨fun _ => rfl, trivial⟩
      refine (storageWriteProg_independent contents _ _ _).bind fun _ => ⟨fun _ => rfl, fun _ => ?_⟩
      exact storageWriteProg_independent contents _ _ _
    | abort => exact absurd trivial hstorage

/-- **Uploads to the storage** find the steps that spare it. -/
theorem atomic_storage (h : op.Ready hw st) (hspares : op.SparesStorage hw st) (contents : Storage) :
    Atomic hw ps st op (.writeStorage contents) := by
  by_cases hindex : op.SparesIndex hw st
  · exact atomic_of_independent h fun n rest s hat =>
      (quiet_of_spares hindex hspares hat).independent _
  · have hremove : ∀ i, ((removeProg hw i).bind fun _ =>
        Prog.update (setRecordingState none) (Prog.done ())).Independent
          (Request.apply hw (.writeStorage contents)) := fun i =>
      (removeLoopProg_independent contents _ i).bind fun _ => ⟨fun _ => rfl, trivial⟩
    cases op with
    | start key =>
      have hl : macroIdxLookup hw st.index key.key = none := by
        rcases hspares with hprogram | hl
        · exact absurd (Or.inl hprogram) hindex
        · exact hl
      intro n result hresult
      obtain ⟨rest, s, hat, -⟩ := delivered_atYield hresult
      have hnew := hat
      rw [startProg_new hl] at hnew
      rcases Prog.atYield_bind_cases hnew with ⟨first, hfirst, -⟩ | ⟨m, hsecond⟩
      · -- the index has been worked on, but not yet the storage
        refine Or.inr ?_
        have hbefore := Prog.delivered_before (q := afterCreate)
          (createProg_independent contents key.key) hfirst
        have hserial : ((createProg hw key.key).bind afterCreate).delivered
            (Request.apply hw (.writeStorage contents)) n st = some ((), result) := by
          rw [← hresult, Prog.delivered, Prog.delivered, startProg_new hl]
        rw [hserial, startNew_run (Request.apply hw (.writeStorage contents) st) hl] at hbefore
        obtain rfl := congrArg Prod.snd (Option.some.inj hbefore)
        exact ⟨rfl, rfl⟩
      · rw [serial_of_independent h hat ((afterCreate_quiet hsecond).independent _) hresult]
        exact Or.inl ⟨rfl, rfl⟩
    | append event => exact absurd trivial hindex
    | commit =>
      refine atomic_of_independent h fun n rest s hat => ?_
      rw [StoreOp.prog, commitProg, Prog.atYield] at hat
      cases hs : st.recordingState with
      | none =>
        rw [hs] at hat
        cases hat
      | some rs =>
        rw [hs] at hat
        have hempty : (Fin.ofNat 65536 (rs.cursor - eventsOf rs.macroData) : Fin 65536) = 0 := by
          rw [hspares rs hs, Nat.sub_self]
          rfl
        simp only [hempty, if_true] at hat
        exact (hremove _).atYield hat
    | abort =>
      refine atomic_of_independent h fun n rest s hat => ?_
      rw [StoreOp.prog, abortProg, Prog.atYield] at hat
      cases hs : st.recordingState with
      | none =>
        rw [hs] at hat
        cases hat
      | some rs =>
        rw [hs] at hat
        exact (hremove _).atYield hat

theorem atomic_reset (h : op.Ready hw st) (hindex : op.SparesIndex hw st)
    (hstorage : op.SparesStorage hw st) : Atomic hw ps st op .reset :=
  atomic_of_independent h fun _ _ _ hat => (quiet_of_spares hindex hstorage hat).independent _

end KeyboardFirmware
