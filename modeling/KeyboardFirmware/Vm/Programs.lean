/-
  The programs in storage, and what the machines keep of them.

  `vm_init` looks up the program of each machine in the table at the start of the program area and
  keeps two pointers, to the header and to the code; `vm_start_vm` reads the header there.  An upload
  through V-USB ends with `vm_init`; one through LUFA does not, and neither does a full reset.
  `Matches` says that a machine goes by the table that is in storage now, and
  `running_matches_iff` which histories keep this for all machines that run.
-/
import KeyboardFirmware.Lib.Memory
import KeyboardFirmware.Vm.Calls

namespace KeyboardFirmware.Vm

open Compiler Lib

/-- The program area of a hardware variant: its address, `PROGRAM_COUNT`, and that the size of its
    table is a byte. -/
structure ProgramHardware where
  programs : Nat
  programCount : Nat
  indexSize_lt : programCount * 4 < 256

namespace ProgramHardware

variable (hw : ProgramHardware)

/-- `programs_index[idx]`. -/
def programsIndex (idx : Fin hw.programCount) : Nat := hw.programs + 4 * idx.val

/-- `programs_data`. -/
def programsData : Nat := hw.programs + 4 * hw.programCount

end ProgramHardware

/-- The contents of the storage. -/
abbrev Contents := Nat → Word8

/-- The storage as the firmware reads it when only some addresses can be read. -/
def Contents.seen (bytes : Contents) (readable : Nat → Bool) : Storage := fun a =>
  if readable a then some (bytes a) else none

/-- The storage when all of it can be read. -/
def Contents.storage (bytes : Contents) : Storage := fun a => some (bytes a)

variable {hw : ProgramHardware}

/-- `config_get_program`. -/
def configGetProgram (hw : ProgramHardware) (s : Storage) (idx : Fin hw.programCount) : Option Nat :=
  match s (hw.programsIndex idx), s (hw.programsIndex idx + 1) with
  | some lo, some hi =>
    if shortOf lo hi = 0xffff then none else some (hw.programsData + (shortOf lo hi).toNat)
  | _, _ => none

/-- `config_reset_program_defaults`. -/
def configResetProgramDefaults (hw : ProgramHardware) (bytes : Contents) : Contents :=
  writeBytes bytes hw.programs (List.replicate (hw.programCount * 4) 0xff)

/-- `usbFunctionWrite` for the packets of a transfer to the programs, until it returns 1: what is in
    storage then, and whether the transfer is complete. -/
def usbFunctionWrite (bytes : Contents) (addr remaining : Nat) :
    List (List Word8) → Contents × Bool
  | [] => (bytes, false)
  | data :: packets =>
    let write := data.take remaining
    let bytes' := writeBytes bytes addr write
    if remaining - write.length = 0 then (bytes', true)
    else usbFunctionWrite bytes' (addr + write.length) (remaining - write.length) packets

/-- `vm_init`, for one machine; its stack is cleared with the rest. -/
def Vmstate.initVm (hw : ProgramHardware) (s : Storage) (idx : Fin hw.programCount) (vm : Vmstate) :
    Vmstate :=
  match configGetProgram hw s idx with
  | none => { vm with state := .noProgram }
  | some p =>
    let mem := fun a => if vm.stack ≤ a ∧ a < vm.stack + STACK_SIZE then 0 else vm.mem a
    match Vmstate.init p s vm.stack mem with
    | some vm => vm
    -- failed to read from eeprom
    | none =>
      { state := .noProgram, delayEndMs := 0, waitKey := 0, triggerLkey := 0, keyboardreport := .clear,
        mousereport := ⟨0, 0, 0⟩, program := p, code := 0, ip := 0, stackTop := 0, currentFrame := 0,
        stack := vm.stack, mem := mem, writes := [] }

/-- The programs and the machines.  The firmware reads neither of the last two fields: what was in
    storage when `vm_init` last ran, and what the last start of each machine has set its instruction
    pointer, its frame and the top of its stack to. -/
structure Firmware (hw : ProgramHardware) where
  bytes : Contents
  vms : Fin hw.programCount → Vmstate
  initial : Contents
  begun : Fin hw.programCount → Nat × Nat × Nat

/-- What happens to them. -/
inductive Event (hw : ProgramHardware) where
  /-- `Keyboard_Main`; the sentinel tells whether the storage has been set up. -/
  | startUp (sentinel : Bool) (readable : Nat → Bool)
  /-- `WRITE_PROGRAMS` in `lufa_main.c`. -/
  | writeProgramsLufa (data : List Word8)
  /-- `WRITE_PROGRAMS` in `vusb_main.c`. -/
  | writeProgramsVusb (wLength : Nat) (packets : List (List Word8)) (readable : Nat → Bool)
  /-- `config_reset_fully`, by a request or by a chord. -/
  | resetFully
  | start (idx : Fin hw.programCount) (triggerLkey : Word8) (readable : Nat → Bool)
  | stepAll (keyboard : Hardware) (readable : Nat → Bool)
  | keyboardReport (report : KeyboardReport)
  | mouseReport (report : MouseReport)

namespace Firmware

/-- `vm_init`. -/
def vmInit (fw : Firmware hw) (readable : Nat → Bool) : Firmware hw :=
  { fw with
    vms := fun i => (fw.vms i).initVm hw (fw.bytes.seen readable) i
    initial := fw.bytes }

/-- `vm_start`. -/
def vmStart (fw : Firmware hw) (idx : Fin hw.programCount) (triggerLkey : Word8)
    (readable : Nat → Bool) : Firmware hw :=
  let vm := (fw.vms idx).start (fw.bytes.seen readable) triggerLkey
  { fw with
    vms := Function.update fw.vms idx vm
    begun :=
      if (fw.vms idx).Startable then
        Function.update fw.begun idx (vm.ip, vm.currentFrame, vm.stackTop)
      else fw.begun }

/-- One event. -/
def after (fw : Firmware hw) : Event hw → Firmware hw
  | .startUp sentinel readable =>
    let bytes := if sentinel then fw.bytes else configResetProgramDefaults hw fw.bytes
    { fw with bytes := bytes }.vmInit readable
  | .writeProgramsLufa data => { fw with bytes := writeBytes fw.bytes hw.programs data }
  | .writeProgramsVusb wLength packets readable =>
    let r := usbFunctionWrite fw.bytes hw.programs wLength packets
    -- the callback of a complete transfer
    if r.2 then { fw with bytes := r.1 }.vmInit readable else { fw with bytes := r.1 }
  | .resetFully => { fw with bytes := configResetProgramDefaults hw fw.bytes }
  | .start idx triggerLkey readable => fw.vmStart idx triggerLkey readable
  | .stepAll keyboard readable =>
    { fw with vms := fun i => (fw.vms i).step keyboard (fw.bytes.seen readable) }
  | .keyboardReport report => { fw with vms := fun i => ((fw.vms i).appendKeyboardReport report).1 }
  | .mouseReport report => { fw with vms := fun i => ((fw.vms i).appendMouseReport report).1 }

/-! ## What is to hold -/

/-- The pointer to the code of a program with so many methods. -/
def codeOf (p : Nat) (nmethods : Word8) : Nat := p + 6 + 4 * nmethods.toNat - 4

/-- What a start takes from a header: instruction pointer, frame and top of the stack. -/
def headerOf (bytes : Contents) (vm : Vmstate) : Nat × Nat × Nat :=
  let frame := vm.stack + (bytes vm.program).toNat
  (vm.code + (shortOf (bytes (vm.program + 4)) (bytes (vm.program + 5))).toNat, frame,
    frame + 6 + (bytes (vm.program + 3)).toNat)

/-- The machine's pointers are those of the table in storage, and its run has begun as the header
    there says. -/
structure Matches (fw : Firmware hw) (i : Fin hw.programCount) : Prop where
  program : configGetProgram hw fw.bytes.storage i = some (fw.vms i).program
  code : (fw.vms i).code = codeOf (fw.vms i).program (fw.bytes ((fw.vms i).program + 1))
  begun : fw.begun i = headerOf fw.bytes (fw.vms i)

/-- All machines that run match the storage. -/
def RunningMatches (fw : Firmware hw) : Prop := ∀ i, (fw.vms i).state.active = true → Matches fw i

/-- A start that reports an error has left its machine not running. -/
def ErrorsStop (fw : Firmware hw) : Event hw → Prop
  | .start idx triggerLkey readable =>
    (fw.vms idx).startResult (fw.bytes.seen readable) = .readError →
      ((fw.vmStart idx triggerLkey readable).vms idx).state.active = false
  | _ => True

/-- Both hold after each event of a history. -/
def AlwaysMatches (fw : Firmware hw) : List (Event hw) → Prop
  | [] => True
  | e :: es => ErrorsStop fw e ∧ RunningMatches (fw.after e) ∧ (fw.after e).AlwaysMatches es

/-! ## The condition -/

/-- The table has the same entry for a machine. -/
def SameEntry (hw : ProgramHardware) (old new : Contents) (i : Fin hw.programCount) : Prop :=
  old (hw.programsIndex i) = new (hw.programsIndex i) ∧
    old (hw.programsIndex i + 1) = new (hw.programsIndex i + 1)

/-- The bytes of a header that are read: the numbers of globals and methods, and the number of locals
    and the offset of the code of method 0. -/
def headerBytes : List Nat := [0, 1, 3, 4, 5]

/-- Nothing that a machine that runs goes by changes: its entry and its header. -/
def SparesRunning (fw : Firmware hw) (new : Contents) : Prop :=
  ∀ i, (fw.vms i).state.active = true → SameEntry hw fw.bytes new i ∧
    ∀ k ∈ headerBytes, fw.bytes ((fw.vms i).program + k) = new ((fw.vms i).program + k)

/-- The condition on an event: an upload without `vm_init` spares the machines that run, a full reset
    finds none of them, and a machine that starts can read its header, and has its entry and its
    number of methods as they were when `vm_init` last ran. -/
def Safe (fw : Firmware hw) : Event hw → Prop
  | .writeProgramsLufa data => SparesRunning fw (writeBytes fw.bytes hw.programs data)
  | .writeProgramsVusb wLength packets _ =>
    let r := usbFunctionWrite fw.bytes hw.programs wLength packets
    r.2 = false → SparesRunning fw r.1
  | .resetFully => ∀ i, (fw.vms i).state.active = false
  | .start idx _ readable =>
    let vm := fw.vms idx
    vm.Startable → vm.ReadsHeader (fw.bytes.seen readable) ∧ SameEntry hw fw.initial fw.bytes idx ∧
      fw.initial (vm.program + 1) = fw.bytes (vm.program + 1)
  | _ => True

/-- The condition on a history. -/
def AlwaysSafe (fw : Firmware hw) : List (Event hw) → Prop
  | [] => True
  | e :: es => Safe fw e ∧ (fw.after e).AlwaysSafe es

/-! ## Table and headers -/

theorem shortOf_inj {lo hi lo' hi' : Word8} (h : shortOf lo hi = shortOf lo' hi') :
    lo = lo' ∧ hi = hi' := by
  refine ⟨?_, ?_⟩
  · rw [← lowByte_shortOf lo hi, h, lowByte_shortOf]
  · rw [← highByte_shortOf lo hi, h, highByte_shortOf]

section Table

variable {old new : Contents} {i : Fin hw.programCount} {p : Nat}

theorem configGetProgram_eq_some_iff : configGetProgram hw old.storage i = some p ↔
    shortOf (old (hw.programsIndex i)) (old (hw.programsIndex i + 1)) ≠ 0xffff ∧
      p = hw.programsData +
        (shortOf (old (hw.programsIndex i)) (old (hw.programsIndex i + 1))).toNat := by
  unfold configGetProgram Contents.storage
  dsimp only
  split_ifs with h
  · exact ⟨nofun, fun h' => absurd h h'.1⟩
  · rw [Option.some_inj]
    exact ⟨fun heq => ⟨h, heq.symm⟩, fun h' => h'.2.symm⟩

/-- An entry that can be read is the one in storage. -/
theorem configGetProgram_seen {readable : Nat → Bool}
    (h : configGetProgram hw (old.seen readable) i = some p) :
    configGetProgram hw old.storage i = some p := by
  unfold configGetProgram Contents.seen at h
  cases hlo : readable (hw.programsIndex i) with
  | false => simp [hlo] at h
  | true =>
    cases hhi : readable (hw.programsIndex i + 1) with
    | false => simp [hlo, hhi] at h
    | true =>
      simp only [hlo, hhi, if_true] at h
      exact h

/-- Two tables give a machine the same program exactly when they have the same entry for it. -/
theorem configGetProgram_iff_sameEntry (h : configGetProgram hw old.storage i = some p) :
    configGetProgram hw new.storage i = some p ↔ SameEntry hw old new i := by
  rw [configGetProgram_eq_some_iff] at h ⊢
  unfold SameEntry
  constructor
  · rintro ⟨-, heq⟩
    exact shortOf_inj (BitVec.eq_of_toNat_eq (by omega))
  · rintro ⟨hlo, hhi⟩
    rw [← hlo, ← hhi]
    exact h

theorem codeOf_inj {n n' : Word8} (h : codeOf p n = codeOf p n') : n = n' := by
  unfold codeOf at h
  exact BitVec.eq_of_toNat_eq (by omega)

end Table

/-- What a start takes from a header is decided by the bytes that it reads. -/
theorem headerOf_inj {vm : Vmstate} {old new : Contents} : headerOf old vm = headerOf new vm ↔
    ∀ k ∈ [0, 3, 4, 5], old (vm.program + k) = new (vm.program + k) := by
  simp only [List.forall_mem_cons, List.not_mem_nil, false_implies, implies_true, and_true,
    Nat.add_zero]
  unfold headerOf
  simp only [Prod.mk.injEq]
  constructor
  · rintro ⟨hip, hframe, htop⟩
    have hcode := shortOf_inj (BitVec.eq_of_toNat_eq (Nat.add_left_cancel hip))
    exact ⟨BitVec.eq_of_toNat_eq (by omega), BitVec.eq_of_toNat_eq (by omega), hcode⟩
  · rintro ⟨h0, h3, h4, h5⟩
    rw [h0, h3, h4, h5]
    exact ⟨rfl, rfl, rfl⟩

/-! ## The machines under each event -/

/-- What leaves a machine its pointers to the program and its stack, and starts none. -/
structure KeepsPointers (vm vm' : Vmstate) : Prop where
  program : vm'.program = vm.program
  code : vm'.code = vm.code
  stack : vm'.stack = vm.stack
  noProgram : vm.state = .noProgram → vm'.state = .noProgram
  active : vm'.state.active = true → vm.state.active = true

theorem exec_pointers (vm : Vmstate) (keyboard : Hardware) (s : Storage) (op : Opcode) :
    (vm.exec keyboard s op).program = vm.program ∧ (vm.exec keyboard s op).code = vm.code ∧
      (vm.exec keyboard s op).stack = vm.stack := by
  rcases Vmstate.opcode_cases op with ⟨sop, hsop, rfl⟩ | ⟨sop, hsop, rfl⟩ | hop
  · simp only [Vmstate.reportOps, List.mem_cons, List.not_mem_nil, or_false] at hsop
    rcases hsop with rfl | rfl | rfl | rfl | rfl
    · simp only [Vmstate.exec, Vmstate.doSyscall]
      split_ifs <;> exact ⟨rfl, rfl, rfl⟩
    all_goals exact ⟨rfl, rfl, rfl⟩
  · simp only [Vmstate.waitOps, List.mem_cons, List.not_mem_nil, or_false] at hsop
    rcases hsop with rfl | rfl | rfl <;> exact ⟨rfl, rfl, rfl⟩
  · have hk := Vmstate.Kept.exec vm s keyboard hop
    exact ⟨hk.program, hk.code, hk.stack⟩

theorem step_pointers (vm : Vmstate) (keyboard : Hardware) (s : Storage) :
    KeepsPointers vm (vm.step keyboard s) := by
  by_cases hactive : vm.state.active = true
  · have hpointers : (vm.step keyboard s).program = vm.program ∧
        (vm.step keyboard s).code = vm.code ∧ (vm.step keyboard s).stack = vm.stack := by
      rcases Vmstate.step_cases vm s keyboard with ⟨op, -, -, hstep⟩ | ⟨-, hk, -⟩
      · obtain ⟨h1, h2, h3⟩ := exec_pointers (vm.wake.advance 1) keyboard s op
        rw [hstep, h1, h2, h3]
        show vm.wake.program = _ ∧ vm.wake.code = _ ∧ vm.wake.stack = _
        unfold Vmstate.wake
        split_ifs <;> exact ⟨rfl, rfl, rfl⟩
      · exact ⟨hk.program, hk.code, hk.stack⟩
    refine ⟨hpointers.1, hpointers.2.1, hpointers.2.2, fun hno => ?_, fun _ => hactive⟩
    rw [hno] at hactive
    exact absurd hactive (by decide)
  · have hstep : vm.step keyboard s = vm := by
      unfold Vmstate.step
      exact if_pos (by simp [hactive])
    rw [hstep]
    exact ⟨rfl, rfl, rfl, id, id⟩

theorem appendKeyboardReport_pointers (vm : Vmstate) (report : KeyboardReport) :
    KeepsPointers vm (vm.appendKeyboardReport report).1 := by
  unfold Vmstate.appendKeyboardReport
  split_ifs with h1 h2
  · exact ⟨rfl, rfl, rfl, id, id⟩
  · exact ⟨rfl, rfl, rfl, fun h => absurd (h.symm.trans h2) (by decide), fun _ => by simpa using h1⟩
  · exact ⟨rfl, rfl, rfl, id, id⟩

theorem appendMouseReport_pointers (vm : Vmstate) (report : MouseReport) :
    KeepsPointers vm (vm.appendMouseReport report).1 := by
  unfold Vmstate.appendMouseReport
  split_ifs with h1 h2
  · exact ⟨rfl, rfl, rfl, id, id⟩
  · exact ⟨rfl, rfl, rfl, fun h => absurd (h.symm.trans h2) (by decide), fun _ => by simpa using h1⟩
  · exact ⟨rfl, rfl, rfl, id, id⟩

/-! ## The invariant -/

/-- A machine with a program keeps the pointers that `vm_init` has found for it. -/
def CacheOk (fw : Firmware hw) : Prop := ∀ i, (fw.vms i).state ≠ .noProgram →
  configGetProgram hw fw.initial.storage i = some (fw.vms i).program ∧
    (fw.vms i).code = codeOf (fw.vms i).program (fw.initial ((fw.vms i).program + 1))

theorem active_ne_noProgram {vm : Vmstate} (h : vm.state.active = true) : vm.state ≠ .noProgram := by
  intro heq
  rw [heq] at h
  exact absurd h (by decide)

/-- `vm_init` makes the pointers fresh, and no machine runs after it. -/
theorem vmInit_spec (fw : Firmware hw) (readable : Nat → Bool) :
    CacheOk (fw.vmInit readable) ∧ RunningMatches (fw.vmInit readable) := by
  have hinit : ∀ i, ((fw.vmInit readable).vms i).state = .noProgram ∨
      (((fw.vmInit readable).vms i).state = .stopped ∧
        configGetProgram hw fw.bytes.storage i = some ((fw.vmInit readable).vms i).program ∧
        ((fw.vmInit readable).vms i).code = codeOf ((fw.vmInit readable).vms i).program
          (fw.bytes (((fw.vmInit readable).vms i).program + 1))) := by
    intro i
    simp only [vmInit, Vmstate.initVm]
    cases hp : configGetProgram hw (fw.bytes.seen readable) i with
    | none => exact .inl rfl
    | some p =>
      dsimp only [Vmstate.init]
      cases hn : fw.bytes.seen readable (p + 1) with
      | none => exact .inl rfl
      | some n =>
        have hbyte : fw.bytes (p + 1) = n := by
          unfold Contents.seen at hn
          split_ifs at hn
          exact Option.some_inj.mp hn
        refine .inr ⟨rfl, configGetProgram_seen hp, ?_⟩
        show p + 6 + 4 * n.toNat - 4 = codeOf p (fw.bytes (p + 1))
        rw [hbyte]
        rfl
  refine ⟨fun i hi => ?_, fun i hi => ?_⟩
  · rcases hinit i with h | h
    · exact absurd h hi
    · exact h.2
  · rcases hinit i with h | ⟨h, -⟩ <;> rw [h] at hi <;> exact absurd hi (by decide)

/-- Where neither the storage nor the pointers change, what matched still does. -/
theorem RunningMatches.of_keeps {fw fw' : Firmware hw} (h : RunningMatches fw)
    (hbytes : fw'.bytes = fw.bytes) (hbegun : fw'.begun = fw.begun)
    (hvms : ∀ i, KeepsPointers (fw.vms i) (fw'.vms i)) : RunningMatches fw' := by
  intro i hi
  have hm := h i ((hvms i).active hi)
  have hheader : headerOf fw.bytes (fw'.vms i) = headerOf fw.bytes (fw.vms i) := by
    unfold headerOf
    rw [(hvms i).program, (hvms i).code, (hvms i).stack]
  refine ⟨?_, ?_, ?_⟩
  · rw [hbytes, (hvms i).program]
    exact hm.program
  · rw [hbytes, (hvms i).program, (hvms i).code]
    exact hm.code
  · rw [hbytes, hbegun, hheader]
    exact hm.begun

theorem CacheOk.of_keeps {fw fw' : Firmware hw} (h : CacheOk fw) (hinitial : fw'.initial = fw.initial)
    (hvms : ∀ i, KeepsPointers (fw.vms i) (fw'.vms i)) : CacheOk fw' := by
  intro i hi
  rw [hinitial, (hvms i).program, (hvms i).code]
  exact h i fun hno => hi ((hvms i).noProgram hno)

/-! ## Each event -/

variable {fw : Firmware hw}

/-- A machine that matches the storage matches it after a write exactly when its entry and its header
    are spared. -/
theorem matches_write_iff {i : Fin hw.programCount} (h : Matches fw i) (new : Contents) :
    Matches { fw with bytes := new } i ↔ SameEntry hw fw.bytes new i ∧
      ∀ k ∈ headerBytes, fw.bytes ((fw.vms i).program + k) = new ((fw.vms i).program + k) := by
  have hentry : configGetProgram hw new.storage i = some (fw.vms i).program ↔
      SameEntry hw fw.bytes new i := configGetProgram_iff_sameEntry h.program
  have hheader : headerOf fw.bytes (fw.vms i) = headerOf new (fw.vms i) ↔ _ := headerOf_inj
  constructor
  · intro hnew
    have hmethods := codeOf_inj (h.code.symm.trans hnew.code)
    have hrest := hheader.mp (h.begun.symm.trans hnew.begun)
    refine ⟨hentry.mp hnew.program, fun k hk => ?_⟩
    by_cases hone : k = 1
    · rw [hone]
      exact hmethods
    · refine hrest k ?_
      simp only [headerBytes, List.mem_cons, List.not_mem_nil, or_false] at hk ⊢
      omega
  · rintro ⟨hsame, hbytes⟩
    refine ⟨hentry.mpr hsame, ?_, ?_⟩
    · show (fw.vms i).code = codeOf _ (new ((fw.vms i).program + 1))
      rw [← hbytes 1 (by decide)]
      exact h.code
    · show fw.begun i = headerOf new (fw.vms i)
      rw [← hheader.mpr fun k hk => hbytes k ?_]
      · exact h.begun
      · simp only [headerBytes, List.mem_cons, List.not_mem_nil, or_false] at hk ⊢
        omega

theorem writes_iff (h : RunningMatches fw) (new : Contents) :
    RunningMatches { fw with bytes := new } ↔ SparesRunning fw new := by
  constructor
  · exact fun hnew i hi => (matches_write_iff (h i hi) new).mp (hnew i hi)
  · exact fun hspares i hi => (matches_write_iff (h i hi) new).mpr (hspares i hi)

/-- A full reset leaves no entry. -/
theorem configGetProgram_reset (bytes : Contents) (i : Fin hw.programCount) :
    configGetProgram hw (configResetProgramDefaults hw bytes).storage i = none := by
  have hi : i.val < hw.programCount := i.isLt
  have hfree : ∀ k, k < 2 →
      configResetProgramDefaults hw bytes (hw.programsIndex i + k) = 0xff := by
    intro k hk
    have hlt : 4 * i.val + k < hw.programCount * 4 := by omega
    unfold configResetProgramDefaults writeBytes ProgramHardware.programsIndex
    rw [if_pos (by omega), show hw.programs + 4 * i.val + k - hw.programs = 4 * i.val + k by omega,
      List.getElem?_replicate, if_pos hlt]
    rfl
  have hlo : configResetProgramDefaults hw bytes (hw.programsIndex i) = 0xff := hfree 0 (by decide)
  unfold configGetProgram Contents.storage
  simp only [hlo, hfree 1 (by decide)]
  exact if_pos (by decide)

theorem resetFully_iff : RunningMatches { fw with bytes := configResetProgramDefaults hw fw.bytes } ↔
    ∀ i, (fw.vms i).state.active = false := by
  constructor
  · intro h i
    by_contra hi
    have hm := (h i (Bool.not_eq_false _ ▸ hi)).program
    exact absurd ((configGetProgram_reset fw.bytes i).symm.trans hm) nofun
  · intro h i hi
    exact absurd (hi.symm.trans (h i)) nofun

/-- A start that reads its header goes by it. -/
theorem start_header {vm : Vmstate} {bytes : Contents} {readable : Nat → Bool} (h : vm.Startable)
    (hreads : vm.ReadsHeader (bytes.seen readable)) (triggerLkey : Word8) :
    let vm' := vm.start (bytes.seen readable) triggerLkey
    (vm'.ip, vm'.currentFrame, vm'.stackTop) = headerOf bytes vm := by
  have hseen : ∀ i, i < 6 → bytes.seen readable (vm.program + i) = some (bytes (vm.program + i)) := by
    intro i hi
    have hsome := hreads i hi
    unfold Contents.seen at hsome ⊢
    split_ifs at hsome ⊢ with hreadable
    · rfl
    · cases hsome
  have h0 : bytes.seen readable vm.program = some (bytes vm.program) := hseen 0 (by decide)
  unfold Vmstate.start
  rw [if_neg (by simp [h.1, h.2])]
  simp only [h0, hseen 1 (by decide), hseen 2 (by decide), hseen 3 (by decide), hseen 4 (by decide),
    hseen 5 (by decide)]
  rfl

theorem start_pointers (vm : Vmstate) (s : Storage) (triggerLkey : Word8) :
    let vm' := vm.start s triggerLkey
    vm'.program = vm.program ∧ vm'.code = vm.code ∧ vm'.stack = vm.stack := by
  by_cases h : vm.Startable
  · have hk : Vmstate.Kept vm (vm.start s triggerLkey) := (Vmstate.start_kept h triggerLkey).1
    exact ⟨hk.program, hk.code, hk.stack⟩
  · show (vm.start s triggerLkey).program = _ ∧ (vm.start s triggerLkey).code = _ ∧
      (vm.start s triggerLkey).stack = _
    rw [Vmstate.start_refused h]
    exact ⟨rfl, rfl, rfl⟩

/-- A refused start changes nothing. -/
theorem vmStart_refused {idx : Fin hw.programCount} (h : ¬ (fw.vms idx).Startable)
    (triggerLkey : Word8) (readable : Nat → Bool) : fw.vmStart idx triggerLkey readable = fw := by
  unfold vmStart
  dsimp only
  rw [if_neg h, Vmstate.start_refused h, Function.update_eq_self]

theorem vmStart_vms (idx : Fin hw.programCount) (triggerLkey : Word8) (readable : Nat → Bool)
    (i : Fin hw.programCount) : (fw.vmStart idx triggerLkey readable).vms i =
      if i = idx then (fw.vms idx).start (fw.bytes.seen readable) triggerLkey else fw.vms i := by
  show Function.update fw.vms idx _ i = _
  rw [Function.update_apply]

/-- A machine other than the one that starts matches as before. -/
theorem matches_vmStart_of_ne {idx i : Fin hw.programCount} (hne : i ≠ idx) (triggerLkey : Word8)
    (readable : Nat → Bool) : Matches (fw.vmStart idx triggerLkey readable) i ↔ Matches fw i := by
  have hvm : (fw.vmStart idx triggerLkey readable).vms i = fw.vms i := by
    rw [vmStart_vms, if_neg hne]
  have hbegun : (fw.vmStart idx triggerLkey readable).begun i = fw.begun i := by
    unfold vmStart
    dsimp only
    split_ifs
    · exact Function.update_of_ne hne _ _
    · rfl
  constructor
  · intro h
    refine ⟨?_, ?_, ?_⟩
    · rw [← hvm]
      exact h.program
    · rw [← hvm]
      exact h.code
    · rw [← hvm, ← hbegun]
      exact h.begun
  · intro h
    refine ⟨?_, ?_, ?_⟩
    · rw [hvm]
      exact h.program
    · rw [hvm]
      exact h.code
    · rw [hvm, hbegun]
      exact h.begun

/-- A machine that has just read its header matches exactly when its entry and its number of methods
    are what `vm_init` has found. -/
theorem matches_vmStart_iff (hcache : CacheOk fw) {idx : Fin hw.programCount}
    (hstart : (fw.vms idx).Startable) (triggerLkey : Word8) {readable : Nat → Bool}
    (hreads : (fw.vms idx).ReadsHeader (fw.bytes.seen readable)) :
    Matches (fw.vmStart idx triggerLkey readable) idx ↔ SameEntry hw fw.initial fw.bytes idx ∧
      fw.initial ((fw.vms idx).program + 1) = fw.bytes ((fw.vms idx).program + 1) := by
  obtain ⟨hprogram, hcode⟩ := hcache idx hstart.1
  obtain ⟨hp, hc, hs⟩ := start_pointers (fw.vms idx) (fw.bytes.seen readable) triggerLkey
  have hvm : (fw.vmStart idx triggerLkey readable).vms idx =
      (fw.vms idx).start (fw.bytes.seen readable) triggerLkey := by
    rw [vmStart_vms, if_pos rfl]
  have hentry : configGetProgram hw fw.bytes.storage idx = some (fw.vms idx).program ↔
      SameEntry hw fw.initial fw.bytes idx := configGetProgram_iff_sameEntry hprogram
  constructor
  · intro h
    have hprogram' := h.program
    have hcode' := h.code
    rw [hvm, hp] at hprogram'
    rw [hvm, hp, hc, hcode] at hcode'
    exact ⟨hentry.mp hprogram', codeOf_inj hcode'⟩
  · rintro ⟨hsame, hmethods⟩
    refine ⟨?_, ?_, ?_⟩
    · rw [hvm, hp]
      exact hentry.mpr hsame
    · rw [hvm, hp, hc, hcode, hmethods]
      rfl
    · have hheader : headerOf fw.bytes ((fw.vms idx).start (fw.bytes.seen readable) triggerLkey) =
          headerOf fw.bytes (fw.vms idx) := by
        unfold headerOf
        rw [hp, hc, hs]
      rw [hvm]
      show _ = headerOf fw.bytes _
      rw [hheader, ← start_header hstart hreads triggerLkey]
      unfold vmStart
      dsimp only
      rw [if_pos hstart, Function.update_self]

/-- The start of a machine. -/
theorem vmStart_iff (hcache : CacheOk fw) (h : RunningMatches fw) (idx : Fin hw.programCount)
    (triggerLkey : Word8) (readable : Nat → Bool) :
    ErrorsStop fw (.start idx triggerLkey readable) ∧
        RunningMatches (fw.vmStart idx triggerLkey readable) ↔
      Safe fw (.start idx triggerLkey readable) := by
  by_cases hstart : (fw.vms idx).Startable
  · have hrun : ((fw.vmStart idx triggerLkey readable).vms idx).state = .running := by
      rw [vmStart_vms, if_pos rfl]
      exact (Vmstate.start_kept hstart triggerLkey).2
    by_cases hreads : (fw.vms idx).ReadsHeader (fw.bytes.seen readable)
    · have hresult : (fw.vms idx).startResult (fw.bytes.seen readable) = .started := by
        unfold Vmstate.startResult
        rw [if_neg (not_not.mpr hstart), if_pos hreads]
      have hmatches := matches_vmStart_iff hcache hstart triggerLkey hreads
      constructor
      · rintro ⟨-, hafter⟩ -
        refine ⟨hreads, hmatches.mp (hafter idx ?_)⟩
        rw [hrun]
        rfl
      · intro hsafe
        refine ⟨fun herror => absurd (hresult.symm.trans herror) (by decide), fun i hi => ?_⟩
        by_cases hidx : i = idx
        · rw [hidx]
          exact hmatches.mpr (hsafe hstart).2
        · rw [vmStart_vms, if_neg hidx] at hi
          exact (matches_vmStart_of_ne hidx triggerLkey readable).mpr (h i hi)
    · have hresult : (fw.vms idx).startResult (fw.bytes.seen readable) = .readError := by
        unfold Vmstate.startResult
        rw [if_neg (not_not.mpr hstart), if_neg hreads]
      refine iff_of_false (fun hstop => ?_) fun hsafe => hreads (hsafe hstart).1
      have hidle := hstop.1 hresult
      rw [hrun] at hidle
      exact absurd hidle (by decide)
  · have hresult : (fw.vms idx).startResult (fw.bytes.seen readable) = .refused := if_pos hstart
    refine iff_of_true ⟨fun herror => ?_, ?_⟩ fun hstart' => absurd hstart' hstart
    · exact absurd (hresult.symm.trans herror) (by decide)
    · rw [vmStart_refused hstart]
      exact h

/-! ## Histories -/

theorem CacheOk.after (h : CacheOk fw) (e : Event hw) : CacheOk (fw.after e) := by
  cases e with
  | startUp sentinel readable => exact (vmInit_spec _ readable).1
  | writeProgramsLufa data => exact h
  | writeProgramsVusb wLength packets readable =>
    unfold Firmware.after
    dsimp only
    split_ifs
    · exact (vmInit_spec _ readable).1
    · exact h
  | resetFully => exact h
  | start idx triggerLkey readable =>
    show CacheOk (fw.vmStart idx triggerLkey readable)
    by_cases hstart : (fw.vms idx).Startable
    · intro i hi
      show configGetProgram hw fw.initial.storage i = _ ∧ _ = codeOf _ (fw.initial _)
      by_cases hidx : i = idx
      · obtain ⟨hp, hc, -⟩ := start_pointers (fw.vms idx) (fw.bytes.seen readable) triggerLkey
        rw [hidx, vmStart_vms, if_pos rfl, hp, hc]
        exact h idx hstart.1
      · rw [vmStart_vms, if_neg hidx] at hi ⊢
        exact h i hi
    · rw [vmStart_refused hstart]
      exact h
  | stepAll keyboard readable =>
    exact h.of_keeps rfl fun i => step_pointers _ _ _
  | keyboardReport report => exact h.of_keeps rfl fun i => appendKeyboardReport_pointers _ _
  | mouseReport report => exact h.of_keeps rfl fun i => appendMouseReport_pointers _ _

/-- **One event**: what runs matches the storage after it exactly when it is safe. -/
theorem after_iff (hcache : CacheOk fw) (h : RunningMatches fw) (e : Event hw) :
    ErrorsStop fw e ∧ RunningMatches (fw.after e) ↔ Safe fw e := by
  cases e with
  | startUp sentinel readable =>
    exact iff_of_true ⟨trivial, (vmInit_spec _ readable).2⟩ trivial
  | writeProgramsLufa data =>
    exact (and_iff_right trivial).trans (writes_iff h _)
  | writeProgramsVusb wLength packets readable =>
    refine (and_iff_right trivial).trans ?_
    unfold Firmware.after Safe
    cases hr : (usbFunctionWrite fw.bytes hw.programs wLength packets).2 with
    | true =>
      simp only [hr, if_true]
      exact iff_of_true (vmInit_spec _ readable).2 nofun
    | false =>
      simp only [hr, forall_const]
      exact writes_iff h _
  | resetFully => exact (and_iff_right trivial).trans resetFully_iff
  | start idx triggerLkey readable => exact vmStart_iff hcache h idx triggerLkey readable
  | stepAll keyboard readable =>
    exact iff_of_true ⟨trivial, h.of_keeps rfl rfl fun i => step_pointers _ _ _⟩ trivial
  | keyboardReport report =>
    exact iff_of_true
      ⟨trivial, h.of_keeps rfl rfl fun i => appendKeyboardReport_pointers _ _⟩ trivial
  | mouseReport report =>
    exact iff_of_true
      ⟨trivial, h.of_keeps rfl rfl fun i => appendMouseReport_pointers _ _⟩ trivial

theorem alwaysMatches_iff (es : List (Event hw)) : ∀ {fw : Firmware hw}, CacheOk fw →
    RunningMatches fw → (fw.AlwaysMatches es ↔ fw.AlwaysSafe es) := by
  induction es with
  | nil => exact fun _ _ => Iff.rfl
  | cons e es ih =>
    intro fw hcache h
    have hone := after_iff hcache h e
    show _ ∧ _ ∧ _ ↔ _ ∧ _
    rw [← and_assoc, hone]
    refine and_congr_right fun hsafe => ?_
    exact ih (hcache.after e) (hone.mpr hsafe).2

/-- **What runs is what is stored, after every event of a history that begins with a start-up,
    exactly when every event is safe.** -/
theorem running_matches_iff (fw : Firmware hw) (sentinel : Bool) (readable : Nat → Bool)
    (es : List (Event hw)) :
    fw.AlwaysMatches (.startUp sentinel readable :: es) ↔
      fw.AlwaysSafe (.startUp sentinel readable :: es) := by
  have hup : CacheOk (fw.after (.startUp sentinel readable)) ∧
      RunningMatches (fw.after (.startUp sentinel readable)) := vmInit_spec _ readable
  show True ∧ _ ∧ _ ↔ True ∧ _
  rw [true_and, true_and, and_iff_right hup.2]
  exact alwaysMatches_iff es hup.1 hup.2

/-! ## Three histories -/

/-- Six programs, as on most hardware. -/
def sixPrograms : ProgramHardware := ⟨0, 6, by decide⟩

/-- A program area with the first program so many bytes behind the table, and no other one. -/
def oneProgram (offset : Nat) : List Word8 :=
  [BitVec.ofNat 8 offset, 0, 7, 0] ++ List.replicate 20 0xff ++ List.replicate offset 0 ++
    [0, 1, 0, 0, 0, 0, 86]

/-- A machine before `vm_init`. -/
def blankMachine : Vmstate :=
  { state := .stopped, delayEndMs := 0, waitKey := 0, triggerLkey := 0, keyboardreport := ⟨0, []⟩,
    mousereport := ⟨0, 0, 0⟩, program := 0, code := 0, ip := 0, stackTop := 0, currentFrame := 0,
    stack := 256, mem := fun _ => 0, writes := [] }

/-- The firmware before its start-up, with this program area. -/
def poweredOff (area : List Word8) : Firmware sixPrograms :=
  { bytes := fun a => area[a]?.getD 0xff
    vms := fun _ => blankMachine
    initial := fun _ => 0xff
    begun := fun _ => (0, 0, 0) }

/-- The machine of the first program. -/
def firstMachine : Fin sixPrograms.programCount := ⟨0, by decide⟩

/-- After an upload through LUFA the old program is started, a full reset leaves a program running,
    and a start that cannot read its header lets the machine run. -/
theorem stale_program_runs :
    ¬ (poweredOff (oneProgram 0)).AlwaysMatches
        [.startUp true fun _ => true, .writeProgramsLufa (oneProgram 8),
          .start firstMachine 1 fun _ => true] ∧
      ¬ (poweredOff (oneProgram 0)).AlwaysMatches
        [.startUp true fun _ => true, .start firstMachine 1 fun _ => true, .resetFully] ∧
      ¬ (poweredOff (oneProgram 0)).AlwaysMatches
        [.startUp true fun _ => true, .start firstMachine 1 fun _ => false] := by
  refine ⟨fun h => ?_, fun h => ?_, fun h => ?_⟩
  · have hprogram := (h.2.2.2.2.2.1 firstMachine (by decide)).program
    exact absurd hprogram (by decide)
  · have hprogram := (h.2.2.2.2.2.1 firstMachine (by decide)).program
    exact absurd hprogram (by decide)
  · exact absurd (h.2.2.1 (by decide)) (by decide)

end Firmware

end KeyboardFirmware.Vm
