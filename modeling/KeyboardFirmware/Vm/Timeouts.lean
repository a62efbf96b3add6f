/-
  Delays and the time limits of waits.

  The end of a wait is kept as what the clock will show, and 0 stands for no end.  The clock has 32 bits,
  so an end behind its wrap is passed at once, an end at its wrap is never reached, and a step that comes
  behind the wrap takes an end before it for one to come (`honoured_iff`).
-/
import KeyboardFirmware.Vm.Restart

namespace KeyboardFirmware.Vm

open Compiler

/-- The instructions that wait for a time. -/
inductive WaitOp
  | delay
  | waitKey
  | waitPhysKey
  deriving DecidableEq

/-- The system call of an instruction. -/
def WaitOp.syscall : WaitOp → SyscallOp
  | .delay => .delay
  | .waitKey => .waitKey
  | .waitPhysKey => .waitPhysKey

/-- What `uptimems` shows at a time, in milliseconds since the start of the keyboard. -/
def clock (time : Nat) : BitVec 32 := BitVec.ofNat 32 time

/-- An instruction that is about to wait. -/
structure WaitRequest where
  vm : Vmstate
  /-- `vm_step` has checked the stack before it executes the instruction. -/
  room : vm.stackTop ≤ vm.stack + (STACK_SIZE - 2)
  op : WaitOp
  start : Nat

namespace WaitRequest

/-- The machine when the instruction is executed. -/
def begin (r : WaitRequest) : Vmstate :=
  r.vm.doSyscall ⟨clock r.start, fun _ => false, fun _ => NO_KEY⟩ r.op.syscall

/-- The requested number of milliseconds; a negative delay is none. -/
def duration (r : WaitRequest) : Nat := r.vm.topShort.toInt.toNat

/-- A wait that has no time limit. -/
def Unlimited (r : WaitRequest) : Prop := r.op ≠ .delay ∧ r.vm.topShort.toInt ≤ 0

instance (r : WaitRequest) : Decidable r.Unlimited := inferInstanceAs (Decidable (_ ∧ _))

/-- What the wait is for is found on the keyboard. -/
def finds (r : WaitRequest) (checkKey : Word8 → Bool) (checkHidKey : Word8 → Word8) : Bool :=
  match r.op with
  | .delay => false
  | .waitKey => checkHidKey r.begin.waitKey ≠ NO_KEY
  | .waitPhysKey => checkKey r.begin.setWaitKey.waitKey

/-- A later call of `vm_step`, at which no key ends the wait. -/
structure Moment (r : WaitRequest) where
  elapsed : Nat
  checkKey : Word8 → Bool
  checkHidKey : Word8 → Word8
  quiet : r.finds checkKey checkHidKey = false

/-- What the call reads. -/
def Moment.hardware {r : WaitRequest} (m : Moment r) : Hardware :=
  ⟨clock (r.start + m.elapsed), m.checkKey, m.checkHidKey⟩

/-- The machine has not gone on. -/
def StillWaits (r : WaitRequest) (vm : Vmstate) : Prop :=
  vm.state = r.begin.state ∧ vm.ip = r.begin.ip

instance (r : WaitRequest) (vm : Vmstate) : Decidable (r.StillWaits vm) :=
  inferInstanceAs (Decidable (_ ∧ _))

/-- What a call after so much time should leave: the wait is not over too early, and over when more than
    the requested time has elapsed; without a limit it is never over. -/
def InTime (r : WaitRequest) (elapsed : Nat) (vm : Vmstate) : Prop :=
  if r.Unlimited then r.StillWaits vm
  else (elapsed < r.duration → r.StillWaits vm) ∧ (r.duration < elapsed → ¬ r.StillWaits vm)

/-- All calls are in time, as long as the machine still waits. -/
def HonouredFrom (r : WaitRequest) (s : Storage) : Vmstate → List (Moment r) → Prop
  | _, [] => True
  | vm, m :: ms =>
    let next := vm.step m.hardware s
    r.InTime m.elapsed next ∧ (r.StillWaits next → HonouredFrom r s next ms)

/-- **The request is honoured** in the calls that follow it. -/
def Honoured (r : WaitRequest) (s : Storage) (ms : List (Moment r)) : Prop :=
  HonouredFrom r s r.begin ms

/-! ## The condition -/

/-- The end of a wait is taken for none: the clock shows 0 then. -/
def EndHidden (r : WaitRequest) : Prop := r.op ≠ .delay ∧ clock (r.start + r.duration) = 0

/-- The clock tells whether the requested time has elapsed: before that, it has as many wraps to go
    through as at the end; after that, it shows more than it did at the end. -/
def ClockTells (r : WaitRequest) (elapsed : Nat) : Prop :=
  (elapsed < r.duration →
    (r.start + elapsed) / 2 ^ 32 = (r.start + r.duration) / 2 ^ 32 ∨ r.EndHidden) ∧
  (r.duration < elapsed →
    clock (r.start + r.duration) < clock (r.start + elapsed) ∧ ¬ r.EndHidden)

/-- The clock tells it at every call up to the first one after the requested time. -/
def ClockTellsAll (r : WaitRequest) : List (Moment r) → Prop
  | [] => True
  | m :: ms => r.ClockTells m.elapsed ∧ (m.elapsed ≤ r.duration → ClockTellsAll r ms)

/-! ## The waiting machine -/

variable {r : WaitRequest} {s : Storage} {vm : Vmstate} {elapsed : Nat}

/-- The call finds the end of the wait behind it. -/
def Over (r : WaitRequest) (elapsed : Nat) : Prop :=
  r.begin.delayEndMs < clock (r.start + elapsed) ∧ (r.op ≠ .delay → r.begin.delayEndMs ≠ 0)

instance (r : WaitRequest) (elapsed : Nat) : Decidable (r.Over elapsed) :=
  inferInstanceAs (Decidable (_ ∧ _))

theorem begin_room (r : WaitRequest) : r.begin.stackTop ≤ r.begin.stack + (STACK_SIZE - 2) := by
  have hroom := r.room
  obtain ⟨vm, room, op, start⟩ := r
  cases op with
  | delay =>
    show vm.stackTop - 2 ≤ vm.stack + (STACK_SIZE - 2)
    exact Nat.le_trans (Nat.sub_le _ _) hroom
  | waitKey | waitPhysKey =>
    show vm.stackTop - 2 - 1 ≤ vm.stack + (STACK_SIZE - 2)
    exact Nat.le_trans (Nat.le_trans (Nat.sub_le _ _) (Nat.sub_le _ _)) hroom

theorem setWaitKey_setWaitKey (vm : Vmstate) : vm.setWaitKey.setWaitKey = vm.setWaitKey := by
  unfold Vmstate.setWaitKey
  split_ifs <;> rfl

/-- The machine as the instruction has left it; a wait for a physical key may have put in the key that
    started the program. -/
def Waiting (r : WaitRequest) (vm : Vmstate) : Prop :=
  vm = r.begin ∨ r.op = .waitPhysKey ∧ vm = r.begin.setWaitKey

theorem Waiting.stillWaits (h : r.Waiting vm) : r.StillWaits vm := by
  rcases h with rfl | ⟨-, rfl⟩
  · exact ⟨rfl, rfl⟩
  · unfold StillWaits Vmstate.setWaitKey
    split_ifs <;> exact ⟨rfl, rfl⟩

/-- An instruction that is executed behind a delay does not leave the same delay. -/
theorem fetch_not_delay (vm : Vmstate) (hw : Hardware) (s : Storage) (hrun : vm.state = .running) :
    ¬ ((vm.fetch hw s).state = .delay ∧ (vm.fetch hw s).ip = vm.ip) := by
  rintro ⟨hstate, hip⟩
  unfold Vmstate.fetch Vmstate.nextInstr at hstate hip
  cases hread : s vm.ip with
  | none =>
    rw [hread] at hstate
    cases hstate
  | some b =>
    rw [hread] at hstate hip
    dsimp only at hstate hip
    cases hop : decode b with
    | none =>
      rw [hop] at hstate
      rw [show vm.state = .delay from hstate] at hrun
      cases hrun
    | some op =>
      rw [hop] at hstate hip
      rcases Vmstate.opcode_cases op with ⟨sop, hsop, rfl⟩ | ⟨sop, hsop, rfl⟩ | hkept
      · simp only [Vmstate.reportOps, List.mem_cons, List.not_mem_nil, or_false] at hsop
        rcases hsop with rfl | rfl | rfl | rfl | rfl
        · change Vmstate.state (if (0xe8 : Word8) ≤ vm.topByte then _ else _) = .delay at hstate
          split_ifs at hstate
          rw [show vm.state = .delay from hstate] at hrun
          cases hrun
        all_goals cases hstate
      · simp only [Vmstate.waitOps, List.mem_cons, List.not_mem_nil, or_false] at hsop
        rcases hsop with rfl | rfl | rfl
        · cases hstate
        · cases hstate
        · have hnext : vm.ip + 1 = vm.ip := hip
          omega
      · have hkept := (Vmstate.Kept.exec { vm with ip := vm.ip + 1 } s hw hkept).state
        rw [hstate] at hkept
        rcases hkept with hkept | hkept
        · rw [show vm.state = .delay from hkept.symm] at hrun
          cases hrun
        · exact absurd hkept (by decide)

theorem begin_state (r : WaitRequest) : r.begin.state =
    match r.op with
    | .delay => .delay
    | .waitKey => .waitKey
    | .waitPhysKey => .waitPhysKey := by
  unfold begin
  cases r.op <;> rfl

theorem Waiting.eq_begin (h : r.Waiting vm) (hop : r.op ≠ .waitPhysKey) : vm = r.begin := by
  rcases h with rfl | ⟨hphys, -⟩
  · rfl
  · exact absurd hphys hop

/-- The end of a wait for a key, when no key is found. -/
theorem Waiting.endWait (h : r.Waiting vm) (hend : vm.delayEndMs = r.begin.delayEndMs)
    (hop : r.op ≠ .delay) (m : Moment r) (v : VByte) :
    let next := if vm.timeout m.hardware then vm.endWait v else vm
    (r.Over m.elapsed → ¬ r.StillWaits next) ∧ (¬ r.Over m.elapsed → r.Waiting next) := by
  have htimeout : vm.timeout m.hardware = true ↔ r.Over m.elapsed := by
    unfold Vmstate.timeout Over
    rw [hend, decide_eq_true_eq]
    constructor
    · rintro ⟨hne, hlt⟩
      exact ⟨hlt, fun _ => hne⟩
    · rintro ⟨hlt, hne⟩
      exact ⟨hne hop, hlt⟩
  intro next
  constructor
  · intro hover hwaits
    have hnext : next = vm.endWait v := if_pos (htimeout.mpr hover)
    have hstate := hwaits.1
    rw [hnext, begin_state] at hstate
    revert hstate
    cases r.op <;> exact nofun
  · intro hover
    have hnext : next = vm := if_neg fun ht => hover (htimeout.mp ht)
    rw [hnext]
    exact h

/-- **A call** ends the wait exactly if it finds the end behind it. -/
theorem Waiting.step (h : r.Waiting vm) (m : Moment r) (s : Storage) :
    (r.Over m.elapsed → ¬ r.StillWaits (vm.step m.hardware s)) ∧
      (¬ r.Over m.elapsed → r.Waiting (vm.step m.hardware s)) := by
  have hroom := r.begin_room
  have hstate := r.begin_state
  have hquiet := m.quiet
  unfold finds at hquiet
  cases hop : r.op with
  | delay =>
    rw [hop] at hstate
    obtain rfl := h.eq_begin (hop ▸ WaitOp.noConfusion)
    rw [Vmstate.step_delay hroom hstate]
    constructor
    · rintro ⟨hover, -⟩ hwaits
      rw [if_pos (show r.begin.delayEndMs < m.hardware.uptimems from hover)] at hwaits
      unfold StillWaits at hwaits
      rw [hstate] at hwaits
      exact fetch_not_delay _ m.hardware s rfl hwaits
    · intro hover
      have hearly : ¬ r.begin.delayEndMs < m.hardware.uptimems := fun hlt =>
        hover ⟨hlt, fun hne => absurd hop hne⟩
      rw [if_neg hearly]
      exact .inl rfl
  | waitKey =>
    rw [hop] at hstate hquiet
    obtain rfl := h.eq_begin (hop ▸ WaitOp.noConfusion)
    have hnone : m.hardware.checkHidKey r.begin.waitKey = NO_KEY := of_decide_eq_false hquiet |> not_not.mp
    rw [Vmstate.step_waitKey hroom hstate, hnone]
    exact h.endWait rfl (hop ▸ WaitOp.noConfusion) m _
  | waitPhysKey =>
    rw [hop] at hstate hquiet
    have hstill : vm.state = .waitPhysKey ∧ vm.stackTop ≤ vm.stack + (STACK_SIZE - 2) ∧
        vm.setWaitKey = r.begin.setWaitKey := by
      rcases h with rfl | ⟨-, rfl⟩
      · exact ⟨hstate, hroom, rfl⟩
      · refine ⟨?_, ?_, setWaitKey_setWaitKey _⟩
        · unfold Vmstate.setWaitKey
          split_ifs <;> exact hstate
        · unfold Vmstate.setWaitKey
          split_ifs <;> exact hroom
    have hnone : m.hardware.checkKey r.begin.setWaitKey.waitKey = false := hquiet
    have hend : r.begin.setWaitKey.delayEndMs = r.begin.delayEndMs := by
      unfold Vmstate.setWaitKey
      split_ifs <;> rfl
    rw [Vmstate.step_waitPhysKey hstill.2.1 hstill.1, hstill.2.2, hnone]
    exact Waiting.endWait (.inr ⟨hop, rfl⟩) hend (hop ▸ WaitOp.noConfusion) m _

/-! ## The end -/

theorem clock_add (time d : Nat) : clock time + clock d = clock (time + d) :=
  (BitVec.ofNat_add time d).symm

theorem clock_lt_iff {a b : Nat} : clock a < clock b ↔ a % 2 ^ 32 < b % 2 ^ 32 := by
  unfold clock
  rw [BitVec.lt_def, BitVec.toNat_ofNat, BitVec.toNat_ofNat]

/-- A short that is not negative, as a duration of 32 bits. -/
theorem setWidth_eq_clock {v : VShort} (h : 0 ≤ v.toInt) : v.setWidth 32 = clock v.toInt.toNat := by
  have hlt := v.isLt
  have hcond := BitVec.toInt_eq_toNat_cond v
  have hnat : v.toInt.toNat = v.toNat := by
    split_ifs at hcond <;> omega
  apply BitVec.eq_of_toNat_eq
  rw [hnat, clock, BitVec.toNat_setWidth, BitVec.toNat_ofNat]

/-- The end that the instruction notes. -/
theorem begin_delayEndMs (hlimited : ¬ r.Unlimited) :
    r.begin.delayEndMs = clock (r.start + r.duration) := by
  have hwidth : 0 ≤ r.vm.topShort.toInt →
      clock r.start + r.vm.topShort.setWidth 32 = clock (r.start + r.duration) := fun hnonneg => by
    rw [setWidth_eq_clock hnonneg, clock_add]
    rfl
  have hzero : (0 : VShort).toInt = 0 := rfl
  unfold begin
  cases hop : r.op with
  | delay =>
    show clock r.start + BitVec.setWidth 32 (if r.vm.topShort.slt 0 then 0 else r.vm.topShort) = _
    split
    · next hneg =>
      rw [BitVec.slt_iff_toInt_lt, hzero] at hneg
      have hduration : r.duration = 0 := Int.toNat_of_nonpos (Int.le_of_lt hneg)
      rw [hduration]
      exact BitVec.add_zero _
    · next hneg =>
      rw [BitVec.slt_iff_toInt_lt, hzero] at hneg
      exact hwidth (Int.not_lt.mp hneg)
  | waitKey | waitPhysKey =>
    have hpos : ¬ r.vm.topShort.toInt ≤ 0 := fun hle => hlimited ⟨hop ▸ WaitOp.noConfusion, hle⟩
    show (if r.vm.topShort.sle 0 then 0 else clock r.start + r.vm.topShort.setWidth 32) = _
    rw [if_neg (by rwa [BitVec.sle_iff_toInt_le, hzero])]
    exact hwidth (by omega)

theorem begin_delayEndMs_unlimited (h : r.Unlimited) : r.begin.delayEndMs = 0 := by
  obtain ⟨hdelay, hle⟩ := h
  have hsle : r.vm.topShort.sle 0 = true := BitVec.sle_iff_toInt_le.mpr hle
  unfold begin
  cases hop : r.op with
  | delay => exact absurd hop hdelay
  | waitKey | waitPhysKey =>
    show (if r.vm.topShort.sle 0 then 0 else clock r.start + r.vm.topShort.setWidth 32) = _
    rw [if_pos hsle]

theorem duration_lt (r : WaitRequest) : r.duration < 2 ^ 15 := by
  have hlt := BitVec.toInt_lt (x := r.vm.topShort)
  unfold duration
  omega

/-- The call finds the end behind it exactly when it should, if the clock tells. -/
theorem clockTells_iff (hlimited : ¬ r.Unlimited) (elapsed : Nat) : r.ClockTells elapsed ↔
    (elapsed < r.duration → ¬ r.Over elapsed) ∧ (r.duration < elapsed → r.Over elapsed) := by
  have hend := begin_delayEndMs hlimited
  have hshort := r.duration_lt
  have hover : r.Over elapsed ↔
      (r.start + r.duration) % 2 ^ 32 < (r.start + elapsed) % 2 ^ 32 ∧ ¬ r.EndHidden := by
    unfold Over EndHidden
    rw [hend, clock_lt_iff, not_and]
  have hlap : elapsed < r.duration →
      ((r.start + elapsed) / 2 ^ 32 = (r.start + r.duration) / 2 ^ 32 ↔
        ¬ (r.start + r.duration) % 2 ^ 32 < (r.start + elapsed) % 2 ^ 32) := by
    omega
  rw [ClockTells, hover, clock_lt_iff, not_and, not_not]
  constructor
  · rintro ⟨hearly, hlate⟩
    refine ⟨fun hlt hbehind => ?_, hlate⟩
    rcases hearly hlt with hsame | hhidden
    · exact absurd hbehind ((hlap hlt).mp hsame)
    · exact hhidden
  · rintro ⟨hearly, hlate⟩
    refine ⟨fun hlt => ?_, hlate⟩
    by_cases hsame : (r.start + elapsed) / 2 ^ 32 = (r.start + r.duration) / 2 ^ 32
    · exact .inl hsame
    · exact .inr (hearly hlt (not_not.mp fun hbehind => hsame ((hlap hlt).mpr hbehind)))

theorem over_of_unlimited (h : r.Unlimited) : ¬ r.Over elapsed :=
  fun hover => hover.2 h.1 (begin_delayEndMs_unlimited h)

/-! ## Runs -/

/-- **The calls are in time** as long as the clock tells the time. -/
theorem Waiting.honouredFrom_iff (hlimited : ¬ r.Unlimited) (s : Storage) :
    ∀ (ms : List (Moment r)) {vm : Vmstate}, r.Waiting vm →
      (r.HonouredFrom s vm ms ↔ r.ClockTellsAll ms)
  | [], _, _ => Iff.rfl
  | m :: ms, vm, h => by
    obtain ⟨hends, hwaits⟩ := h.step m s
    have hstill : r.StillWaits (vm.step m.hardware s) ↔ ¬ r.Over m.elapsed :=
      ⟨fun hw hover => hends hover hw, fun hover => (hwaits hover).stillWaits⟩
    have hiff := clockTells_iff hlimited m.elapsed
    have hintime : r.InTime m.elapsed (vm.step m.hardware s) ↔ r.ClockTells m.elapsed := by
      rw [InTime, if_neg hlimited, hstill, not_not, hiff]
    have hequal : ¬ r.Over r.duration := by
      rintro ⟨hlt, -⟩
      rw [begin_delayEndMs hlimited] at hlt
      exact absurd hlt (BitVec.lt_irrefl _)
    rw [HonouredFrom, ClockTellsAll, hintime, hstill]
    refine and_congr_right fun htells => ?_
    obtain ⟨hearly, hlate⟩ := hiff.mp htells
    have hopen : ¬ r.Over m.elapsed ↔ m.elapsed ≤ r.duration := by
      rcases Nat.lt_trichotomy m.elapsed r.duration with hlt | heq | hgt
      · exact ⟨fun _ => Nat.le_of_lt hlt, fun _ => hearly hlt⟩
      · exact ⟨fun _ => Nat.le_of_eq heq, fun _ => heq ▸ hequal⟩
      · exact ⟨fun hover => absurd (hlate hgt) hover, fun hle => absurd hle (Nat.not_le.mpr hgt)⟩
    rw [hopen]
    constructor
    · intro hnext hle
      exact (Waiting.honouredFrom_iff hlimited s ms (hwaits (hopen.mpr hle))).mp (hnext hle)
    · intro hnext hle
      exact (Waiting.honouredFrom_iff hlimited s ms (hwaits (hopen.mpr hle))).mpr (hnext hle)

/-- Without a time limit, a wait that finds no key is never over. -/
theorem Waiting.honouredFrom_unlimited (hunlimited : r.Unlimited) (s : Storage) :
    ∀ (ms : List (Moment r)) {vm : Vmstate}, r.Waiting vm → r.HonouredFrom s vm ms
  | [], _, _ => trivial
  | m :: ms, vm, h => by
    have hnext := (h.step m s).2 (over_of_unlimited hunlimited)
    rw [HonouredFrom, InTime, if_pos hunlimited]
    exact ⟨hnext.stillWaits, fun _ => Waiting.honouredFrom_unlimited hunlimited s ms hnext⟩

/-- **A request is honoured** if and only if it has no time limit, or the clock tells the time at the
    calls that follow it. -/
theorem honoured_iff (r : WaitRequest) (s : Storage) (ms : List (Moment r)) :
    r.Honoured s ms ↔ r.Unlimited ∨ r.ClockTellsAll ms := by
  by_cases hunlimited : r.Unlimited
  · exact ⟨fun _ => .inl hunlimited, fun _ => Waiting.honouredFrom_unlimited hunlimited s ms (.inl rfl)⟩
  · rw [Honoured, Waiting.honouredFrom_iff hunlimited s ms (.inl rfl)]
    exact ⟨.inr, fun h => h.resolve_left hunlimited⟩

/-- Within one round of the clock, a request is honoured. -/
theorem clockTellsAll_of_no_wrap (hend : r.start + r.duration < 2 ^ 32) (hnonzero : ¬ r.EndHidden) :
    ∀ ms : List (Moment r), (∀ m ∈ ms, r.start + m.elapsed < 2 ^ 32) → r.ClockTellsAll ms
  | [], _ => trivial
  | m :: ms, h => by
    have hnow := h m List.mem_cons_self
    refine ⟨⟨fun _ => .inl (by omega), fun hlt => ⟨clock_lt_iff.mpr (by omega), hnonzero⟩⟩, fun _ => ?_⟩
    exact clockTellsAll_of_no_wrap hend hnonzero ms fun m' hm' => h m' (List.mem_cons_of_mem _ hm')

/-- A request of 100 ms, made so many ms before the clock wraps. -/
def beforeWrap (op : WaitOp) (ms : Nat) : WaitRequest where
  vm := { Vmstate.mainMachine with stackTop := 18, mem := fun a => if a = 17 then 100 else 0 }
  room := by decide
  op := op
  start := 2 ^ 32 - ms

/-- A call at which no key is pressed. -/
def idleMoment (r : WaitRequest) (elapsed : Nat) : Moment r where
  elapsed := elapsed
  checkKey := fun _ => false
  checkHidKey := fun _ => NO_KEY
  quiet := by
    unfold finds
    cases r.op <;> rfl

/-- A delay that ends behind the wrap is over at once; a wait that ends at the wrap is not over after
    twice its time. -/
theorem clock_wrap_breaks_waits :
    ¬ (beforeWrap .delay 10).Honoured (fun _ => none) [idleMoment _ 0] ∧
      ¬ (beforeWrap .waitKey 100).Honoured (fun _ => none) [idleMoment _ 200] := by
  constructor
  · intro h
    have htime := h.1
    rw [InTime, if_neg (by decide)] at htime
    exact absurd (htime.1 (by decide)) (by decide)
  · intro h
    have htime := h.1
    rw [InTime, if_neg (by decide)] at htime
    exact absurd (show _ ∧ _ by decide) (htime.2 (by decide))

end WaitRequest

end KeyboardFirmware.Vm
