/-
  Uploads that mix with a recording step.

  A step that goes on working on the memory that was uploaded leaves a mixture of the two: a commit
  raises the end offset over a record the upload has taken away, a start writes a stale offset into
  the entry, a removal pulls down entries of an index it has not begun with.  Each of these comes with
  an upload that shows it, so that the conditions of `Macro.Uploads` are exact
  (`operations_atomic_iff`).
-/
import KeyboardFirmware.Macro.Bounds
import KeyboardFirmware.Macro.Uploads

namespace KeyboardFirmware

open Lib

variable {hw : Hardware} {ps : PagedStorage} {st : MacroStore} {op : StoreOp} {req : Request}

/-! ## Uploads that mix with the rest -/

theorem storageWriteProg_ends (ps : PagedStorage) : ∀ (fuel dst : Nat) (data : List Byte)
    (s : MacroStore), data ≠ [] → data.length ≤ fuel →
    (storageWriteProg ps fuel dst data).EndsInYield s := by
  intro fuel
  induction fuel with
  | zero => exact fun _ data _ hne hlen => absurd (List.length_eq_zero_iff.mp (Nat.le_zero.mp hlen)) hne
  | succ fuel ih =>
    intro dst data s hne hlen
    cases data with
    | nil => exact absurd rfl hne
    | cons b data =>
      have hpos := ps.pageRemaining_pos dst
      refine Prog.endsInYield_update ?_
      generalize hrest : (b :: data).drop (min (b :: data).length (ps.pageRemaining dst)) = rest
      cases rest with
      | nil => exact Or.inl ⟨(), by cases fuel <;> rfl⟩
      | cons c rest =>
        refine Or.inr (ih _ _ _ (List.cons_ne_nil _ _) ?_)
        rw [← hrest, List.length_drop]
        simp only [List.length_cons] at *
        omega

theorem not_atomic {n : Nat} {result : MacroStore}
    (hresult : (op.prog hw ps).delivered (req.apply hw) n st = some ((), result))
    (hafter : ¬ SameStores result (req.apply hw (op.apply hw st)))
    (hbefore : ¬ SameStores result (op.apply hw (req.apply hw st))) : ¬ Atomic hw ps st op req :=
  fun h => (h n result hresult).elim hafter hbefore

/-- The end offset after an upload is that of the upload. -/
theorem writeStorage_endOffset (contents : Storage) (st : MacroStore) :
    storageReadShort (Request.apply hw (.writeStorage contents) st).mem macrosEndOffset =
      storageReadShort contents macrosEndOffset := by
  have hsize := hw.size_ge
  exact storageReadShort_congr (if_pos (by simp only [macrosEndOffset]; omega))
    (if_pos (by simp only [macrosEndOffset]; omega))

/-- **Commit**: an upload to the storage between the length and the end offset. -/
theorem commit_not_atomic (h : StoreOp.commit.Ready hw st) (hsome : ¬ NothingRecorded st) :
    ∃ contents, Request.Valid hw (.writeStorage contents) ∧
      ¬ Atomic hw ps st .commit (.writeStorage contents) := by
  obtain ⟨n, recs, k, appended, entry, hrec, hroom⟩ := h
  have hne : appended ≠ [] := by
    rintro rfl
    refine hsome fun rs hrs => ?_
    rw [hrec.state] at hrs
    obtain rfl := Option.some.inj hrs
    rfl
  have hfit := hroom hne
  have hsize := hw.size_le
  have hpos := List.length_pos_iff.mpr hne
  obtain ⟨E, hE⟩ : ∃ E, (encode recs).length = E := ⟨_, rfl⟩
  have hstate := hrec.state
  rw [hE] at hstate hfit
  obtain ⟨len, hlen⟩ : ∃ len : Fin 65536, Fin.ofNat 65536 appended.length = len := ⟨_, rfl⟩
  have hlenval : len.val = appended.length := by
    rw [← hlen, Fin.val_ofNat]
    simp only [eventsOf, macros, macroDataHeaderLen] at hfit
    omega
  have hlen0 : len ≠ 0 := by
    rw [ne_eq, Fin.ext_iff, Fin.val_zero]; omega
  -- the contents before the commit, except for the byte the length goes to
  obtain ⟨b, hb⟩ : ∃ b : Byte, b ≠ Fin.ofNat 256 len.val := ⟨Fin.ofNat 256 len.val + 1, by
    intro heq
    have hval := congrArg Fin.val heq
    rw [Fin.val_add] at hval
    simp only [Fin.val_ofNat, Fin.val_one] at hval
    omega⟩
  obtain ⟨contents, hcontents⟩ : ∃ c, Function.update st.mem (macros E) b = c := ⟨_, rfl⟩
  have hkept : ∀ a, a < macros E → contents a = st.mem a := fun a ha => by
    rw [← hcontents, Function.update_of_ne (Nat.ne_of_lt ha)]
  have hend : storageReadShort contents macrosEndOffset = storageReadShort st.mem macrosEndOffset :=
    storageReadShort_congr (hkept _ (by simp only [macros, macrosEndOffset]; omega))
      (hkept _ (by simp only [macros, macrosEndOffset]; omega))
  refine ⟨contents, ?_, ?_⟩
  · obtain ⟨habort, -⟩ := hrec.abort
    have hmem : (macrosAbortMacro hw st).mem = st.mem := by
      simp only [macrosAbortMacro, hrec.state]
    rw [hmem] at habort
    have hvalid := @StoreInv.of_agree _ _ _ _ _ _ contents habort fun a ha => hkept a (hE ▸ ha)
    exact ⟨_, StoreInv.storeOk hvalid⟩
  · -- the mixture
    obtain ⟨X, hX⟩ : ∃ X, Request.apply hw (.writeStorage contents)
        (writeMem (macros E) (shortBytes len) st) = X := ⟨_, rfl⟩
    have hXend : storageReadShort X.mem macrosEndOffset = storageReadShort st.mem macrosEndOffset := by
      rw [← hX, writeStorage_endOffset, hend]
    obtain ⟨m, hm⟩ := (storageWriteProg_ends ps 2 (macros E) (shortBytes len) st
      (List.cons_ne_nil _ _) (Nat.le_refl 2)).delivered (fun _ => (Prog.read fun st =>
        storageWriteProg ps 2 macrosEndOffset (shortBytes (storageReadShort st.mem macrosEndOffset
          + (len + Fin.ofNat 65536 macroDataHeaderLen)))).bind fun _ =>
            .update (setRecordingState none) <| .done ())
      (Request.apply hw (.writeStorage contents))
    rw [storageWriteProg_short, hX, Prog.run_bind, Prog.run, storageWriteProg_short, hXend] at hm
    -- the length goes to the byte that the upload changed
    have hXbyte : X.mem (macros E) = b := by
      rw [← hX]
      show (if macros E < hw.macrosSize then contents (macros E) else _) = b
      rw [if_pos (by simp only [eventsOf, macroDataHeaderLen] at hfit; omega), ← hcontents,
        Function.update_self]
    refine @not_atomic hw ps st .commit (.writeStorage contents) m
      (setRecordingState none (writeMem macrosEndOffset (shortBytes
        (storageReadShort st.mem macrosEndOffset + (len + Fin.ofNat 65536 macroDataHeaderLen))) X))
      ?_ ?_ ?_
    · refine Eq.trans ?_ hm
      simp only [Prog.delivered, StoreOp.prog, commitProg, Prog.atYield, hstate,
        Nat.add_sub_cancel_left, hlen, if_neg hlen0, Prog.bind_assoc, Prog.bind]
    · -- after the step the end offset would be that of the upload
      rintro ⟨-, hmem⟩
      have hread := congrArg (fun mem => storageReadShort mem macrosEndOffset) hmem
      simp only [writeStorage_endOffset, hend] at hread
      have hsum := (storageReadShort_writeShort X.mem macrosEndOffset _).symm.trans hread
      have hval := congrArg Fin.val hsum
      have hlt := (storageReadShort st.mem macrosEndOffset).isLt
      rw [Fin.val_add, Fin.val_add, hlenval, Fin.val_ofNat] at hval
      simp only [eventsOf, macros, macroDataHeaderLen] at hval hfit
      omega
    · -- before the step the upload would be written over
      rintro ⟨-, hmem⟩
      have hbyte := congrFun hmem (macros E)
      have houtside : ∀ (mem : Storage) v, storageWriteShort mem macrosEndOffset v (macros E)
          = mem (macros E) := fun mem v => storageWriteShort_of_outside mem v
        (Or.inr (by simp only [macros, macrosEndOffset]; omega))
      have hleft := (houtside X.mem _).symm.trans hbyte
      have hstate' : (Request.apply hw (.writeStorage contents) st).recordingState =
        some ⟨macros E, eventsOf (macros E) + appended.length, entry⟩ := hstate
      simp only [StoreOp.apply, macrosCommitMacro, hstate', Nat.add_sub_cancel_left, hlen,
        if_neg hlen0, houtside] at hleft
      have hwritten := writeBytes_holds (Request.apply hw (.writeStorage contents) st).mem (macros E)
        (shortBytes len) 0 (by simp)
      exact hb (hXbyte.symm.trans (hleft.trans hwritten))

/-- Deleting a macro ends with the write of the end offset, behind which the storage polls. -/
theorem deleteProg_ends (hw : Hardware) (ps : PagedStorage) {i : Nat}
    (hp : ¬ (st.index i).IsProgram) :
    (deleteProg hw ps i).EndsInYield st := by
  have htype := macroIdxGetData_not_program hp
  rw [deleteProg]
  apply Prog.EndsInYield.read
  simp only [htype]
  exact Prog.EndsInYield.bind (storageWriteProg_ends ps 2 _ _ _ (List.cons_ne_nil _ _) le_rfl)

/-- Creating an entry ends with the write of its key. -/
theorem createProg_ends (key : MacroIdxKey)
    (hfree : (st.index (hw.macroIndexCount - 1)).key.head = noKey) :
    (createProg hw key).EndsInYield st := by
  show Prog.EndsInYield (if (st.index (hw.macroIndexCount - 1)).key.head ≠ noKey then _ else _) st
  rw [if_neg (not_not.mpr hfree)]
  exact Prog.EndsInYield.bind (Prog.endsInYield_update (Or.inl ⟨_, rfl⟩))

/-- What a request in front of the second half of a start comes to. -/
theorem start_delivered (ps : PagedStorage) {key : KeyBuffer} (h : (StoreOp.start key).Ready hw st) {i : Nat}
    {mid : MacroStore} (hstart : startEntry hw st key.key = some (i, mid))
    (hprogram : ¬ HasProgram hw st key.key) (req : Request) :
    ∃ m, ((StoreOp.start key).prog hw ps).delivered (req.apply hw) m st =
      some ((), ((recordIntoProg i).run (req.apply hw mid)).2) := by
  obtain ⟨n, recs, hinv, -⟩ := h
  rw [startEntry] at hstart
  cases hl : macroIdxLookup hw st.index key.key with
  | some entry =>
    rw [hl] at hstart
    obtain ⟨rfl, rfl⟩ := Prod.mk.inj (Option.some.inj hstart)
    have hi := ((macroIdxLookup_eq_some_iff hinv.inv (key.key_eq ▸ key.trigger.key_head)).mp hl).1
    have hp : ¬ (st.index entry).IsProgram := fun hp =>
      hprogram ⟨entry, hl, (macroIdxGetData_type st.index entry).mpr hp⟩
    obtain ⟨m, hm⟩ := (deleteProg_ends hw ps hp).delivered
      (fun _ => (recordIntoProg entry).bind fun _ => .done ()) (req.apply hw)
    rw [deleteProg_run hinv hi, Prog.run_bind] at hm
    refine ⟨m, Eq.trans ?_ hm⟩
    simp only [Prog.delivered, StoreOp.prog, startProg, Prog.bind, Prog.atYield, hl, Prog.bind_assoc]
  | none =>
    rw [hl] at hstart
    have hfree : (st.index (hw.macroIndexCount - 1)).key.head = noKey := by
      by_contra hfull
      rw [macroIdxCreate, if_pos hfull] at hstart
      cases hstart
    cases hc : macroIdxCreate hw st.index key.key with
    | none =>
      rw [hc] at hstart
      cases hstart
    | some res =>
      rw [hc] at hstart
      obtain ⟨rfl, rfl⟩ := Prod.mk.inj (Option.some.inj hstart)
      obtain ⟨m, hm⟩ := (createProg_ends key.key hfree).delivered afterCreate
        (req.apply hw)
      rw [createProg_run, hc, afterCreate, Prog.run_bind] at hm
      refine ⟨m, Eq.trans ?_ hm⟩
      rw [Prog.delivered, Prog.delivered, startProg_new hl]

theorem macroIdxSetData_val (index : MacroIndex) (i : Nat) (data : Fin 65536) :
    (macroIdxSetData index i ⟨.macroEntry, data⟩ i).val = data := by
  rw [macroIdxSetData, Function.update_self]
  rfl

/-- **Start** on a key that has a macro: an upload to the storage behind the deletion. -/
theorem start_not_atomic_storage {key : KeyBuffer} (h : (StoreOp.start key).Ready hw st) {i : Nat}
    (hl : macroIdxLookup hw st.index key.key = some i) (hp : ¬ (st.index i).IsProgram) :
    ∃ contents, Request.Valid hw (.writeStorage contents) ∧
      ¬ Atomic hw ps st (.start key) (.writeStorage contents) := by
  have hok := h
  obtain ⟨n, recs, hinv, -⟩ := h
  have hi : i < n := ((macroIdxLookup_eq_some_iff hinv.inv (key.key_eq ▸ key.trigger.key_head)).mp hl).1
  obtain ⟨pre, ev, post, offset, len, endOffset, hd⟩ := hinv.deletedRecord hi hp
  -- the contents are what the storage holds before the start
  have hsame : Request.apply hw (.writeStorage st.mem) st = st := by
    show { st with mem := fun a => if a < hw.macrosSize then st.mem a else st.mem a } = st
    simp only [ite_self]
  have hstart : startEntry hw st key.key = some (i, deleteMacroData hw st i) := by
    rw [startEntry, hl]
  have hnewEnd : storageReadShort (deleteMacroData hw st i).mem macrosEndOffset = endOffset - len := by
    rw [deleteMacroData_not_program hp hd.offset_eq hd.len_eq hd.end_eq]
    split <;> exact storageReadShort_writeShort _ _ _
  have hmoved : endOffset - len ≠ endOffset := by
    have hlen := hd.len_val
    intro heq
    have hval := congrArg Fin.val heq
    rw [Fin.sub_def] at hval
    simp only at hval
    have := len.isLt
    have := endOffset.isLt
    omega
  obtain ⟨m, hm⟩ := start_delivered ps hok hstart (by
    rintro ⟨entry, hentry, htype⟩
    rw [hl] at hentry
    obtain rfl := Option.some.inj hentry
    exact hp ((macroIdxGetData_type st.index i).mp htype)) (.writeStorage st.mem)
  rw [recordIntoProg_run, writeStorage_endOffset, hd.end_eq] at hm
  have hafter : (StoreOp.start key).apply hw st =
      ((recordIntoProg i).run (deleteMacroData hw st i)).2 := by
    rw [recordIntoProg_run, StoreOp.apply, macrosStartMacro, hstart]
  rw [recordIntoProg_run, hnewEnd] at hafter
  refine ⟨st.mem, ⟨st.index, hok⟩, not_atomic hm ?_ ?_⟩
  · -- after the step the entry would point at the new end
    rintro ⟨hindex, -⟩
    rw [hafter] at hindex
    have hval := congrArg MacroIdxEntry.val (congrFun hindex i)
    rw [macroIdxSetData_val] at hval
    exact hmoved (hval.trans (macroIdxSetData_val _ i _)).symm
  · -- before the step the end offset would be the new one
    rintro ⟨-, hmem⟩
    rw [hsame, hafter] at hmem
    have hread := congrArg (fun mem => storageReadShort mem macrosEndOffset) hmem
    simp only [writeStorage_endOffset, hd.end_eq, hnewEnd] at hread
    exact hmoved hread.symm

/-- An index without macros belongs to an empty storage. -/
theorem writeIndex_valid {contents : MacroIndex} {n : Nat} (h : IndexInv hw contents n)
    (hprograms : ∀ i, i < n → (contents i).IsProgram) :
    Request.Valid hw (.writeIndex contents) := by
  have hstore : StoreInv hw contents (fun _ => 0) n [] none :=
    { inv := h
      end_eq := rfl
      fits := hw.size_ge
      tiled := holds_nil
      points := fun e he hp => by
        obtain ⟨i, hi, rfl⟩ := he
        exact absurd (hprograms i hi) hp
      pointed := fun o k ev hp => absurd hp.mem_recs List.not_mem_nil }
  exact ⟨_, StoreInv.storeOk hstore⟩

theorem writeIndex_of_lt {contents : MacroIndex} {i : Nat} (hi : i < hw.macroIndexCount)
    (st : MacroStore) : (Request.apply hw (.writeIndex contents) st).index i = contents i :=
  if_pos hi

/-- The uploaded index keeps its invariant in the store. -/
theorem IndexInv.uploaded {contents : MacroIndex} {n : Nat} (h : IndexInv hw contents n)
    (st : MacroStore) : IndexInv hw (Request.apply hw (.writeIndex contents) st).index n where
  le_count := h.le_count
  used i hi := by
    rw [writeIndex_of_lt (Nat.lt_of_lt_of_le hi h.le_count)]
    exact h.used i hi
  ascending i j hij hj := by
    have := h.le_count
    rw [writeIndex_of_lt (by omega), writeIndex_of_lt (by omega)]
    exact h.ascending i j hij hj
  empty i hi hc := by
    rw [writeIndex_of_lt hc]
    exact h.empty i hi hc

/-- **Start** on a key without a program: an upload to the index in front of its second half. -/
theorem start_not_atomic_index {key : KeyBuffer} (h : (StoreOp.start key).Ready hw st) {i : Nat}
    {mid : MacroStore} (hstart : startEntry hw st key.key = some (i, mid))
    (hprogram : ¬ HasProgram hw st key.key) :
    ∃ contents, Request.Valid hw (.writeIndex contents) ∧
      ¬ Atomic hw ps st (.start key) (.writeIndex contents) := by
  have hdelivered := start_delivered ps h hstart hprogram
  obtain ⟨n, recs, hinv, -⟩ := h
  rw [key.key_eq] at hstart
  obtain ⟨n', recs', hmid, hi, -, -⟩ := startEntry_spec hinv key.trigger hstart
  have hcount : i < hw.macroIndexCount := Nat.lt_of_lt_of_le hi hmid.inv.le_count
  -- an index with no entry in use, whose unused values are not the end offset
  obtain ⟨endOffset, hend⟩ : ∃ e, storageReadShort mid.mem macrosEndOffset = e := ⟨_, rfl⟩
  obtain ⟨v, hv⟩ : ∃ v : Fin 65536, v ≠ endOffset := exists_ne endOffset
  obtain ⟨contents, hcontents⟩ : ∃ c : MacroIndex, (fun _ => ⟨emptyKey, v⟩) = c := ⟨_, rfl⟩
  have hempty : IndexInv hw contents 0 :=
    { le_count := Nat.zero_le _
      used := fun i hi => absurd hi (Nat.not_lt_zero i)
      ascending := fun i j _ hj => absurd hj (Nat.not_lt_zero j)
      empty := fun i _ _ => by rw [← hcontents] }
  obtain ⟨m, hm⟩ := hdelivered (.writeIndex contents)
  refine ⟨contents, writeIndex_valid hempty fun i hi => absurd hi (Nat.not_lt_zero i),
    not_atomic hm ?_ ?_⟩
  · -- after the step the upload would be left alone
    rintro ⟨hindex, -⟩
    have hval := congrArg MacroIdxEntry.val (congrFun hindex i)
    rw [recordIntoProg_run, macroIdxSetData_val, writeIndex_of_lt hcount, ← hcontents] at hval
    exact hv (hval.symm.trans hend)
  · -- before the step the key would be in use
    rintro ⟨hindex, -⟩
    obtain ⟨st', hst'⟩ : ∃ st', Request.apply hw (.writeIndex contents) st = st' := ⟨_, rfl⟩
    have huploaded : IndexInv hw st'.index 0 := hst' ▸ hempty.uploaded st
    have hnew : ∀ i, i < 0 → (st'.index i).key ≠ key.trigger.key := fun i hi =>
      absurd hi (Nat.not_lt_zero i)
    have hl : macroIdxLookup hw st'.index key.trigger.key = none :=
      (macroIdxLookup_eq_none_iff huploaded key.trigger.key_head).mpr hnew
    obtain ⟨r, -, -, -, hc⟩ :=
      macroIdxCreate_eq huploaded hw.count_pos key.trigger.key_head hnew
    obtain ⟨hr, hkey, -⟩ := create_inUse huploaded hnew hc
    have hfound := congrArg (fun index => (index r).key) hindex
    simp only [recordIntoProg_run, macroIdxSetData_key, hst', StoreOp.apply, macrosStartMacro,
      startEntry, key.key_eq, hl, hc] at hfound
    rw [hkey] at hfound
    have hr0 : r < hw.macroIndexCount := Nat.lt_of_lt_of_le hr hw.count_pos
    refine key.trigger.key_head ?_
    rw [← hfound, writeIndex_of_lt hr0, ← hcontents]
    rfl

/-- A removal that is not of the last entry: an upload to the index behind its first move. -/
theorem remove_not_atomic {n entry : Nat} (hinv : IndexInv hw st.index n) (hentry : entry < n)
    (hlast : ¬ LastInUse hw st.index entry)
    (hprog : ∀ f m, (op.prog hw ps).delivered f m st = ((removeProg hw entry).bind fun _ =>
      Prog.update (setRecordingState none) (Prog.done ())).delivered f m st)
    (happly : ∀ st', st'.recordingState = st.recordingState →
      (op.apply hw st').index = macroIdxRemove hw st'.index entry) :
    ∃ contents, Request.Valid hw (.writeIndex contents) ∧
      ¬ Atomic hw ps st op (.writeIndex contents) := by
  have hcount := hinv.le_count
  obtain ⟨hnotEnd, hused⟩ := not_or.mp hlast
  have hnext : entry + 1 < n := Nat.lt_of_not_le fun hle =>
    hused (hinv.head_empty hle (by omega))
  -- the index as it is, with programs only
  obtain ⟨contents, hcontents⟩ : ∃ c : MacroIndex,
    (fun j => { st.index j with val := 0x8000 }) = c := ⟨_, rfl⟩
  have hkeys : ∀ j, (contents j).key = (st.index j).key := fun j => by rw [← hcontents]
  have hprograms : ∀ j, j < n → (contents j).IsProgram := fun j _ => by
    rw [← hcontents]
    exact Nat.le_refl _
  have hvalid := hinv.of_key_eq hkeys
  -- the first move, and the request behind it
  obtain ⟨moved, hmoved⟩ : ∃ s : MacroStore,
    onIndex (fun index => Function.update index entry (st.index (entry + 1))) st = s := ⟨_, rfl⟩
  obtain ⟨X, hX⟩ : ∃ X, Request.apply hw (.writeIndex contents) moved = X := ⟨_, rfl⟩
  have hXinv : IndexInv hw X.index n := hX ▸ hvalid.uploaded moved
  have hdelivered : (op.prog hw ps).delivered (Request.apply hw (.writeIndex contents)) 0 st =
      some ((), setRecordingState none { X with index := macroIdxRemove hw X.index (entry + 1) }) := by
    rw [hprog, removeProg, show hw.macroIndexCount - entry = hw.macroIndexCount - (entry + 1) + 1 by
      omega]
    simp only [Prog.delivered, removeLoopProg, Prog.bind, Prog.atYield, if_neg hnotEnd, if_neg hused,
      hmoved]
    show some (Prog.run _ (Request.apply hw (.writeIndex contents) moved)) = _
    rw [hX, Prog.run_bind, removeLoopProg_run]
    rfl
  refine ⟨contents, writeIndex_valid hvalid hprograms, not_atomic hdelivered ?_ ?_⟩
  · -- after the step the upload would have kept all its entries
    rintro ⟨hindex, -⟩
    have hremoved : IndexInv hw (macroIdxRemove hw X.index (entry + 1)) (n - 1) := hXinv.remove hnext
    have hkept := hvalid.uploaded (op.apply hw st)
    rw [← hindex] at hkept
    exact hkept.head_used (show n - 1 < n by omega) (hremoved.head_empty le_rfl (by omega))
  · -- before the step the entry of the recording would have been removed
    rintro ⟨hindex, -⟩
    obtain ⟨st', hst'⟩ : ∃ st', Request.apply hw (.writeIndex contents) st = st' := ⟨_, rfl⟩
    have hinv' : IndexInv hw st'.index n := hst' ▸ hvalid.uploaded st
    have hsame : st'.index entry = X.index entry := by
      rw [← hst', ← hX, writeIndex_of_lt (by omega), writeIndex_of_lt (by omega)]
    have hne : (X.index entry).key ≠ (X.index (entry + 1)).key :=
      (hXinv.ascending entry (entry + 1) (Nat.lt_succ_self entry) hnext).ne
    have hleft := (remove_inUse hXinv hnext (X.index entry)).mpr ⟨⟨entry, hentry, rfl⟩, hne⟩
    have hright : macroIdxRemove hw X.index (entry + 1) = macroIdxRemove hw st'.index entry := by
      rw [← happly st' (hst' ▸ rfl), ← hst']
      exact hindex
    rw [hright] at hleft
    exact ((remove_inUse hinv' hentry _).mp hleft).2 (congrArg MacroIdxEntry.key hsame.symm)

theorem abort_not_atomic (h : StoreOp.abort.Ready hw st) (hlast : ¬ RecordsLast hw st) :
    ∃ contents, Request.Valid hw (.writeIndex contents) ∧
      ¬ Atomic hw ps st .abort (.writeIndex contents) := by
  obtain ⟨n, recs, k, appended, entry, hrec, -⟩ := h
  refine remove_not_atomic hrec.store.inv hrec.entry_lt (fun hl => hlast fun rs hrs => ?_) ?_ ?_
  · rw [hrec.state] at hrs
    obtain rfl := Option.some.inj hrs
    exact hl
  · intro f m
    simp only [Prog.delivered, StoreOp.prog, abortProg, Prog.atYield, hrec.state]
  · intro st' hst'
    simp only [StoreOp.apply, macrosAbortMacro, hst', hrec.state]

/-- A commit without events removes the entry, as an abort does. -/
theorem commit_not_atomic_index (h : StoreOp.commit.Ready hw st) (hnothing : NothingRecorded st)
    (hlast : ¬ RecordsLast hw st) :
    ∃ contents, Request.Valid hw (.writeIndex contents) ∧
      ¬ Atomic hw ps st .commit (.writeIndex contents) := by
  obtain ⟨n, recs, k, appended, entry, hrec, -⟩ := h
  have hlen : (Fin.ofNat 65536 (eventsOf (macros (encode recs).length) + appended.length
      - eventsOf (macros (encode recs).length)) : Fin 65536) = 0 := by
    have hcursor := hnothing _ hrec.state
    simp only at hcursor
    rw [hcursor, Nat.sub_self]
    rfl
  refine remove_not_atomic hrec.store.inv hrec.entry_lt (fun hl => hlast fun rs hrs => ?_) ?_ ?_
  · rw [hrec.state] at hrs
    obtain rfl := Option.some.inj hrs
    exact hl
  · intro f m
    simp only [Prog.delivered, StoreOp.prog, commitProg, Prog.atYield, hrec.state, hlen, if_true]
  · intro st' hst'
    simp only [StoreOp.apply, macrosCommitMacro, hst', hrec.state, hlen, if_true]

/-- A step that does not spare the index meets an upload that mixes with it. -/
theorem not_atomic_index (ps : PagedStorage) (h : op.Ready hw st) (hspares : ¬ op.SparesIndex hw st) :
    ∃ contents, Request.Valid hw (.writeIndex contents) ∧
      ¬ Atomic hw ps st op (.writeIndex contents) := by
  cases op with
  | start key =>
    obtain ⟨hprogram, hrefused⟩ := not_or.mp hspares
    cases hstart : startEntry hw st key.key with
    | none =>
      have hflag : (macrosStartMacro hw st key.key).1 = false := by rw [macrosStartMacro, hstart]
      exact absurd ((macrosStartMacro_refused_iff key.key).mp hflag) hrefused
    | some res => exact start_not_atomic_index h hstart hprogram
  | append event => exact absurd trivial hspares
  | commit =>
    obtain ⟨hnothing, hlast⟩ := Classical.not_imp.mp hspares
    exact commit_not_atomic_index h hnothing hlast
  | abort => exact abort_not_atomic h hspares

/-- The same for the storage. -/
theorem not_atomic_storage (ps : PagedStorage) (h : op.Ready hw st) (hspares : ¬ op.SparesStorage hw st) :
    ∃ contents, Request.Valid hw (.writeStorage contents) ∧
      ¬ Atomic hw ps st op (.writeStorage contents) := by
  cases op with
  | start key =>
    obtain ⟨hprogram, hfound⟩ := not_or.mp hspares
    obtain ⟨i, hl⟩ := Option.ne_none_iff_exists'.mp hfound
    exact start_not_atomic_storage h hl fun hp =>
      hprogram ⟨i, hl, (macroIdxGetData_type st.index i).mpr hp⟩
  | append event => exact absurd trivial hspares
  | commit => exact commit_not_atomic h hspares
  | abort => exact absurd trivial hspares

/-- **Which steps are atomic.**  A step is atomic with respect to every upload of a valid index
    exactly when it spares the index, to every upload of a valid storage exactly when it spares the
    storage, and to all requests exactly when it spares both.  And where a step is atomic with
    respect to a request, what holds of both serial orders holds of whatever comes out. -/
theorem operations_atomic_iff (hw : Hardware) (ps : PagedStorage) (st : MacroStore) (op : StoreOp)
    (h : op.Ready hw st) :
    ((∀ contents, Request.Valid hw (.writeIndex contents) →
      Atomic hw ps st op (.writeIndex contents)) ↔ op.SparesIndex hw st) ∧
    ((∀ contents, Request.Valid hw (.writeStorage contents) →
      Atomic hw ps st op (.writeStorage contents)) ↔ op.SparesStorage hw st) ∧
    ((∀ req : Request, req.Valid hw → Atomic hw ps st op req) ↔
      op.SparesIndex hw st ∧ op.SparesStorage hw st) ∧
    ∀ req : Request, Atomic hw ps st op req → ∀ inv : MacroIndex → Storage → Prop,
      inv (req.apply hw (op.apply hw st)).index (req.apply hw (op.apply hw st)).mem →
      inv (op.apply hw (req.apply hw st)).index (op.apply hw (req.apply hw st)).mem →
      ∀ n result, (op.prog hw ps).delivered (req.apply hw) n st = some ((), result) →
        inv result.index result.mem := by
  have hindex : (∀ contents, Request.Valid hw (.writeIndex contents) →
      Atomic hw ps st op (.writeIndex contents)) ↔ op.SparesIndex hw st := by
    refine ⟨fun hall => ?_, fun hspares contents _ => atomic_index h hspares contents⟩
    by_contra hspares
    obtain ⟨contents, hvalid, hnot⟩ := not_atomic_index ps h hspares
    exact hnot (hall contents hvalid)
  have hstorage : (∀ contents, Request.Valid hw (.writeStorage contents) →
      Atomic hw ps st op (.writeStorage contents)) ↔ op.SparesStorage hw st := by
    refine ⟨fun hall => ?_, fun hspares contents _ => atomic_storage h hspares contents⟩
    by_contra hspares
    obtain ⟨contents, hvalid, hnot⟩ := not_atomic_storage ps h hspares
    exact hnot (hall contents hvalid)
  refine ⟨hindex, hstorage, ⟨fun hall => ?_, fun hspares req _ => ?_⟩, ?_⟩
  · exact ⟨hindex.mp fun contents => hall (.writeIndex contents),
      hstorage.mp fun contents => hall (.writeStorage contents)⟩
  · cases req with
    | writeIndex contents => exact atomic_index h hspares.1 contents
    | writeStorage contents => exact atomic_storage h hspares.2 contents
    | reset => exact atomic_reset h hspares.1 hspares.2
  · intro req hatomic inv hafter hbefore n result hresult
    rcases hatomic n result hresult with ⟨hi, hm⟩ | ⟨hi, hm⟩
    · rw [hi, hm]
      exact hafter
    · rw [hi, hm]
      exact hbefore

/-! ## A recording of one event -/

/-- The stores a recording passes through, as long as there is room for it, are ready for its next
    step. -/
theorem StoreOp.ready_stateAt {r : Recording} (hok : StoreOk hw st) (hroom : r.HasRoom hw st)
    (hs : (macrosStartMacro hw st r.key).1 = true) (i : Nat) (hop : ∀ key, op ≠ .start key) :
    op.Ready hw (r.stateAt hw st i) := by
  obtain ⟨n, recs, hinv, -⟩ := hok
  have hfits := Recording.hasRoom_iff.mp hroom hs
  have hkey : r.key = r.trigger.trigger.key := r.trigger.key_eq
  rw [Recording.Fits] at hfits
  rw [hkey] at hs hfits
  obtain ⟨n', recs', entry, hrec, -⟩ := macrosStartMacro_spec hinv r.trigger.trigger hs
  rw [hrec.store.end_eq] at hfits
  have hall := hrec.appendAll (r.events.take i)
  rw [List.nil_append] at hall
  have hready : ∃ n recs k appended entry, RecordingInv hw (r.stateAt hw st i) n recs k appended entry ∧
      (appended ≠ [] →
        eventsOf (macros (encode recs).length) + appended.length ≤ hw.macrosSize) := by
    rw [Recording.stateAt, hkey]
    refine ⟨n', recs', _, r.events.take i, entry, hall, fun hne => ?_⟩
    have hevents : r.events ≠ [] := fun hnil => hne (by rw [hnil, List.take_nil])
    have hlen : (r.events.take i).length ≤ r.events.length := List.length_take_le' i r.events
    have := hfits hevents
    omega
  cases op with
  | start key => exact absurd rfl (hop key)
  | append event => exact hready
  | commit => exact hready
  | abort => exact hready

/-- The store in the middle of a first recording: one event has been appended. -/
def oneEvent : MacroStore := (repeatRecording 1).stateAt k80cs (blankStore.reset k80cs) 1

theorem oneEvent_ready (hop : ∀ key, op ≠ .start key) : op.Ready k80cs oneEvent :=
  StoreOp.ready_stateAt (blankStore_ok k80cs) (Or.inr (Or.inr (by decide +kernel)))
    (by decide +kernel) 1 hop

/-- Another append is atomic. -/
theorem append_atomic_with_uploads :
    (StoreOp.append 5).Ready k80cs oneEvent ∧
    ∀ req : Request, req.Valid k80cs → Atomic k80cs spiEeprom oneEvent (.append 5) req :=
  have hready := oneEvent_ready fun _ h => StoreOp.noConfusion h
  ⟨hready, (operations_atomic_iff k80cs spiEeprom oneEvent (.append 5) hready).2.2.1.mpr
    ⟨trivial, trivial⟩⟩

/-- The commit is not: when an empty macro area is uploaded behind the length, the commit raises the
    end offset over a record that is not there. -/
theorem commit_mixes_with_upload :
    StoreOp.commit.Ready k80cs oneEvent ∧
    Request.Valid k80cs (.writeStorage (blankStore.reset k80cs).mem) ∧
    (∃ result, (StoreOp.commit.prog k80cs spiEeprom).delivered
        (Request.apply k80cs (.writeStorage (blankStore.reset k80cs).mem)) 0 oneEvent
          = some ((), result) ∧
      storageReadShort result.mem macrosEndOffset = 3 ∧
      storageReadShort result.mem (macros 0) = 0xFFFF) ∧
    ¬ Atomic k80cs spiEeprom oneEvent .commit (.writeStorage (blankStore.reset k80cs).mem) := by
  obtain ⟨outcome, houtcome⟩ : ∃ outcome, (StoreOp.commit.prog k80cs spiEeprom).delivered
      (Request.apply k80cs (.writeStorage (blankStore.reset k80cs).mem)) 0 oneEvent = some outcome :=
    Option.isSome_iff_exists.mp (by decide +kernel)
  have hend : (Option.map (fun o : Unit × MacroStore => storageReadShort o.2.mem macrosEndOffset)
      (some outcome)) = some 3 := by
    rw [← houtcome]
    decide +kernel
  have hlength : (Option.map (fun o : Unit × MacroStore => storageReadShort o.2.mem (macros 0))
      (some outcome)) = some 0xFFFF := by
    rw [← houtcome]
    decide +kernel
  obtain ⟨⟨⟩, result⟩ := outcome
  have hend' : storageReadShort result.mem macrosEndOffset = 3 := Option.some.inj hend
  have hlength' : storageReadShort result.mem (macros 0) = 0xFFFF := Option.some.inj hlength
  refine ⟨oneEvent_ready fun _ h => StoreOp.noConfusion h, ⟨_, blankStore_ok k80cs⟩,
    ⟨result, houtcome, hend', hlength'⟩, not_atomic houtcome ?_ ?_⟩
  · -- the commit and then the upload: the area is empty
    rintro ⟨-, hmem⟩
    rw [hmem] at hend'
    exact absurd hend' (by decide +kernel)
  · -- the upload and then the commit: the record has its length
    rintro ⟨-, hmem⟩
    rw [hmem] at hlength'
    exact absurd hlength' (by decide +kernel)

end KeyboardFirmware
