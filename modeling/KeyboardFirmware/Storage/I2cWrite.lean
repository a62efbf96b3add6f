/-
  `i2c_eeprom_write`: what it returns when the device refuses something.

  The bus is given by its acknowledgements alone; what happens on it is logged, and a data byte counts as
  accepted when it was acknowledged.  The function is right about a transfer that succeeds.  When a page
  is refused, the test that chooses between the number of bytes and -1 is the wrong way round: it returns
  0 when nothing was accepted and -1 when something was (`i2cEepromWrite_contract_iff`).
-/
import KeyboardFirmware.Storage.I2cEeprom

namespace KeyboardFirmware.TwoWire

open Lib
open I2c (Addr I2cEepromErr addressByte pagePart pagePart_pos)

/-- What happens on the bus. -/
inductive BusEvent where
  | start
  | byte (b : Byte) (ack : Bool)
  | stop

/-- The bus and `storage_errno`. -/
structure Bus where
  /-- Whether the coming bytes are acknowledged. -/
  acks : Nat → Bool
  storageErrno : I2cEepromErr
  events : List BusEvent

/-! ## `twi.c` -/

/-- `twi_start`. -/
def twiStart : StateM Bus Unit := modify fun s => { s with events := s.events ++ [.start] }

/-- `twi_stop`. -/
def twiStop : StateM Bus Unit := modify fun s => { s with events := s.events ++ [.stop] }

/-- `twi_write_byte`: whether it was acknowledged. -/
def twiWriteByte (val : Byte) : StateM Bus Bool := modifyGet fun s =>
  (s.acks 0, { s with acks := fun i => s.acks (i + 1), events := s.events ++ [.byte val (s.acks 0)] })

/-! ## The driver -/

/-- The loop of `i2c_eeprom_start_write`: whether the device has answered. -/
def selectDevice (address : Byte) : Nat → StateM Bus Bool
  | 0 => return false
  | i + 1 => do
    twiStart
    if ← twiWriteByte address then return true
    selectDevice address i

/-- `i2c_eeprom_start_write`. -/
def i2cEepromStartWrite (addr : Addr) : StateM Bus I2cEepromErr := do
  let ack ← selectDevice (addressByte addr) 11
  if !ack then
    twiStop
    return .wselectError
  let ack ← twiWriteByte (Fin.ofNat 256 addr.val)
  if !ack then
    twiStop
    return .addressError
  return .success

/-- `i2c_eeprom_continue_write`: how many bytes were written. -/
def i2cEepromContinueWrite : List Byte → StateM Bus Nat
  | [] => return 0
  | b :: buf => do
    let ack ← twiWriteByte b
    if !ack then
      modify fun s => { s with storageErrno := .dataError }
      twiStop
      return 0
    let i ← i2cEepromContinueWrite buf
    return i + 1

/-- `i2c_eeprom_write_page`. -/
def i2cEepromWritePage (addr : Addr) (buf : List Byte) : StateM Bus Nat := do
  modify fun s => { s with storageErrno := .success }
  let r ← i2cEepromStartWrite addr
  if r ≠ .success then
    modify fun s => { s with storageErrno := r }
    return 0
  let wr ← i2cEepromContinueWrite buf
  if wr = buf.length then twiStop
  return wr

/-- The loop of `i2c_eeprom_write`. -/
def i2cEepromWriteLoop (dst : Addr) (data : List Byte) (written : BitVec 16) : StateM Bus (BitVec 16) :=
  if _h : data.length = 0 then return written
  else do
    let n := pagePart false dst data.length
    let w ← i2cEepromWritePage dst (data.take n)
    let written := written + BitVec.ofNat 16 w
    if w ≠ n then return if written = 0 then written else -1
    i2cEepromWriteLoop (dst + Fin.ofNat 65536 n) (data.drop n) written
termination_by data.length
decreasing_by
  rw [List.length_drop]
  exact Nat.sub_lt (Nat.pos_of_ne_zero ‹_›) (pagePart_pos false _ ‹_›)

/-- `i2c_eeprom_write`. -/
def i2cEepromWrite (dst : Addr) (data : List Byte) : StateM Bus (BitVec 16) := i2cEepromWriteLoop dst data 0

/-! ## What is accepted -/

/-- The bus as a listener sees it. -/
structure Watched where
  /-- The number of bytes since the start condition; `none` when the bus is stopped. -/
  since : Option Nat
  /-- The acknowledged bytes behind the two of the address. -/
  accepted : List Byte

def Watched.see (w : Watched) : BusEvent → Watched
  | .start => ⟨some 0, w.accepted⟩
  | .stop => ⟨none, w.accepted⟩
  | .byte b ack =>
    match w.since with
    | some (k + 2) => ⟨some (k + 3), if ack then w.accepted ++ [b] else w.accepted⟩
    | since => ⟨since.map (· + 1), w.accepted⟩

def Bus.watched (s : Bus) : Watched := s.events.foldl Watched.see ⟨none, []⟩

/-- What the comment of `i2c_eeprom_write` says of its result, and that the bus is stopped. -/
structure Contract (data : List Byte) (r : BitVec 16) (s : Bus) : Prop where
  full : r.toInt = data.length ↔ s.watched.accepted = data
  partly : 0 < s.watched.accepted.length → s.watched.accepted.length < data.length →
    r.toInt = s.watched.accepted.length
  nothing : data ≠ [] → s.watched.accepted = [] → r.toInt = -1
  stopped : s.watched.since = none

/-! ## What is granted -/

/-- The try that the device answers to. -/
def answered : Nat → (Nat → Bool) → Option Nat
  | 0, _ => none
  | n + 1, acks => if acks 0 then some 0 else (answered n fun i => acks (i + 1)).map (· + 1)

/-- The device answers within eleven tries, and takes the low byte of the address and `n` bytes of data. -/
def PageGranted (acks : Nat → Bool) (n i : Nat) : Prop :=
  answered 11 acks = some i ∧ ∀ j ≤ n, acks (i + 1 + j) = true

/-- The device refuses nothing of the transfer. -/
inductive Granted : (Nat → Bool) → Addr → Nat → Prop where
  | done (acks : Nat → Bool) (dst : Addr) : Granted acks dst 0
  | page {acks : Nat → Bool} {dst : Addr} {count i : Nat} (hcount : count ≠ 0)
      (hpage : PageGranted acks (pagePart false dst count) i)
      (hrest : Granted (fun k => acks (i + 2 + pagePart false dst count + k))
        (dst + Fin.ofNat 65536 (pagePart false dst count)) (count - pagePart false dst count)) :
      Granted acks dst count

/-! ## The bytes -/

variable {s : Bus} {b : Byte} {buf : List Byte} {addr : Addr} {k i : Nat}

@[simp] theorem watched_twiStart (s : Bus) : (twiStart s).2.watched = ⟨some 0, s.watched.accepted⟩ :=
  List.foldl_concat _ _ _ _

@[simp] theorem watched_twiStop (s : Bus) : (twiStop s).2.watched = ⟨none, s.watched.accepted⟩ :=
  List.foldl_concat _ _ _ _

theorem watched_twiWriteByte (b : Byte) (s : Bus) :
    (twiWriteByte b s).2.watched = s.watched.see (.byte b (s.acks 0)) :=
  List.foldl_concat _ _ _ _

/-- A byte of the address. -/
theorem twiWriteByte_address (b : Byte) (hk : k < 2) (hsince : s.watched.since = some k) :
    (twiWriteByte b s).2.watched = ⟨some (k + 1), s.watched.accepted⟩ := by
  rw [watched_twiWriteByte, Watched.see, hsince]
  match k, hk with
  | 0, _ => rfl
  | 1, _ => rfl

/-- A byte of the data. -/
theorem twiWriteByte_data (b : Byte) (hsince : s.watched.since = some (k + 2)) :
    (twiWriteByte b s).2.watched =
      ⟨some (k + 3), if s.acks 0 then s.watched.accepted ++ [b] else s.watched.accepted⟩ := by
  rw [watched_twiWriteByte, Watched.see, hsince]

/-- The tries: no byte of data is among them. -/
theorem selectDevice_spec (address : Byte) : ∀ (n : Nat) (s : Bus),
    (selectDevice address n s).2.watched.accepted = s.watched.accepted ∧
      (selectDevice address n s).1 = (answered n s.acks).isSome ∧
      ∀ i, answered n s.acks = some i → (selectDevice address n s).2.watched.since = some 1 ∧
        (selectDevice address n s).2.acks = fun j => s.acks (i + 1 + j)
  | 0, s => ⟨rfl, rfl, nofun⟩
  | n + 1, s => by
    have hbyte := twiWriteByte_address address Nat.zero_lt_two (congrArg Watched.since (watched_twiStart s))
    rw [watched_twiStart] at hbyte
    have hsince : (twiWriteByte address (twiStart s).2).2.watched.since = some 1 := by rw [hbyte]
    have hsame : (twiWriteByte address (twiStart s).2).2.watched.accepted = s.watched.accepted := by rw [hbyte]
    rw [selectDevice, stateM_bind, stateM_bind, answered]
    cases hack : s.acks 0 with
    | true =>
      have htaken : (twiWriteByte address (twiStart s).2).1 = true := hack
      rw [htaken, if_pos rfl, if_pos rfl]
      refine ⟨hsame, rfl, fun i hi => ?_⟩
      obtain rfl := Option.some.inj hi
      refine ⟨hsince, ?_⟩
      funext j
      show s.acks (j + 1) = s.acks (0 + 1 + j)
      rw [Nat.zero_add, Nat.add_comm]
    | false =>
      have hrefused : (twiWriteByte address (twiStart s).2).1 = false := hack
      rw [hrefused, if_neg Bool.false_ne_true, if_neg Bool.false_ne_true]
      obtain ⟨haccepted, hresult, hnext⟩ := selectDevice_spec address n (twiWriteByte address (twiStart s).2).2
      refine ⟨haccepted.trans hsame, ?_, fun i hi => ?_⟩
      · rw [Option.isSome_map]
        exact hresult
      · obtain ⟨i', hi', rfl⟩ := Option.map_eq_some_iff.mp hi
        obtain ⟨hselected, hacks⟩ := hnext i' hi'
        refine ⟨hselected, hacks.trans ?_⟩
        funext j
        show s.acks (i' + 1 + j + 1) = s.acks (i' + 1 + 1 + j)
        rw [Nat.add_right_comm]

/-- `i2c_eeprom_start_write`: it succeeds when the device answers and takes the low byte of the address. -/
theorem startWrite_spec (addr : Addr) (s : Bus) :
    let run := i2cEepromStartWrite addr s
    run.2.watched.accepted = s.watched.accepted ∧
      ((∃ i, answered 11 s.acks = some i ∧ s.acks (i + 1) = true ∧ run.1 = .success ∧
          run.2.watched.since = some 2 ∧ run.2.acks = fun j => s.acks (i + 2 + j)) ∨
        ((∀ i, answered 11 s.acks = some i → s.acks (i + 1) = false) ∧ run.1 ≠ .success ∧
          run.2.watched.since = none)) := by
  obtain ⟨hsame, hresult, hnext⟩ := selectDevice_spec (addressByte addr) 11 s
  rw [i2cEepromStartWrite, stateM_bind]
  generalize selectDevice (addressByte addr) 11 s = selected at *
  obtain ⟨ack, s₁⟩ := selected
  cases hanswer : answered 11 s.acks with
  | none =>
    rw [hanswer] at hresult
    obtain rfl : ack = false := hresult
    refine ⟨?_, .inr ⟨nofun, nofun, ?_⟩⟩
    · exact (congrArg Watched.accepted (watched_twiStop s₁)).trans hsame
    · exact congrArg Watched.since (watched_twiStop s₁)
  | some i =>
    rw [hanswer] at hresult
    obtain rfl : ack = true := hresult
    obtain ⟨hsince, hacks⟩ := hnext i hanswer
    have hbyte := twiWriteByte_address (Fin.ofNat 256 addr.val) Nat.one_lt_two hsince
    have hword : (twiWriteByte (Fin.ofNat 256 addr.val) s₁).1 = s.acks (i + 1) := by
      show s₁.acks 0 = _
      rw [show s₁.acks = _ from hacks]
    have hlater : (twiWriteByte (Fin.ofNat 256 addr.val) s₁).2.acks = fun j => s.acks (i + 2 + j) := by
      show (fun j => s₁.acks (j + 1)) = _
      rw [show s₁.acks = _ from hacks]
      funext j
      show s.acks (i + 1 + (j + 1)) = s.acks (i + 2 + j)
      rw [show i + 1 + (j + 1) = i + 2 + j by omega]
    simp only [Bool.not_true, Bool.false_eq_true, if_false]
    rw [stateM_bind]
    generalize twiWriteByte (Fin.ofNat 256 addr.val) s₁ = written at *
    obtain ⟨ack, s₂⟩ := written
    replace hbyte : s₂.watched = ⟨some 2, s₁.watched.accepted⟩ := hbyte
    have haccepted : s₂.watched.accepted = s.watched.accepted := by
      rw [hbyte]
      exact hsame
    cases ack with
    | false =>
      refine ⟨?_, .inr ⟨fun i' hi' => ?_, nofun, ?_⟩⟩
      · exact (congrArg Watched.accepted (watched_twiStop s₂)).trans haccepted
      · obtain rfl := Option.some.inj hi'
        exact hword.symm
      · exact congrArg Watched.since (watched_twiStop s₂)
    | true => exact ⟨haccepted, .inl ⟨i, rfl, hword.symm, rfl, congrArg Watched.since hbyte, hlater⟩⟩

/-- `i2c_eeprom_continue_write`: the bytes in front of the first refusal are accepted. -/
theorem continueWrite_spec : ∀ (buf : List Byte) {k : Nat} {s : Bus}, s.watched.since = some (k + 2) →
    let run := i2cEepromContinueWrite buf s
    run.1 ≤ buf.length ∧ run.2.watched.accepted = s.watched.accepted ++ buf.take run.1 ∧
      (run.1 = buf.length ↔ ∀ j < buf.length, s.acks j = true) ∧
      (run.1 = buf.length → run.2.acks = fun j => s.acks (buf.length + j)) ∧
      (run.1 ≠ buf.length → run.2.watched.since = none)
  | [], k, s, _ =>
    ⟨Nat.le_refl 0, (List.append_nil _).symm, iff_of_true rfl nofun,
      fun _ => funext fun j => congrArg s.acks (Nat.zero_add j).symm, fun h => absurd rfl h⟩
  | b :: buf, k, s, hsince => by
    have hbyte := twiWriteByte_data b hsince
    have hack : (twiWriteByte b s).1 = s.acks 0 := rfl
    have hlater : (twiWriteByte b s).2.acks = fun j => s.acks (j + 1) := rfl
    rw [i2cEepromContinueWrite, stateM_bind]
    generalize twiWriteByte b s = written at *
    obtain ⟨ack, s₁⟩ := written
    replace hack : ack = s.acks 0 := hack
    replace hlater : s₁.acks = fun j => s.acks (j + 1) := hlater
    replace hbyte : s₁.watched = _ := hbyte
    cases ack with
    | false =>
      rw [← hack] at hbyte
      refine ⟨Nat.zero_le _, ?_, ⟨nofun, fun h => ?_⟩, nofun, fun _ => ?_⟩
      · refine (congrArg Watched.accepted (watched_twiStop _)).trans ?_
        show s₁.watched.accepted = s.watched.accepted ++ []
        rw [hbyte, List.append_nil]
        rfl
      · have hfirst := h 0 (Nat.succ_pos _)
        rw [← hack] at hfirst
        exact nomatch hfirst
      · exact congrArg Watched.since (watched_twiStop _)
    | true =>
      rw [← hack] at hbyte
      obtain ⟨hle, haccepted, hall, hacks, hstopped⟩ :=
        continueWrite_spec buf (k := k + 1) (s := s₁) (by rw [hbyte])
      simp only [Bool.not_true, Bool.false_eq_true, if_false]
      rw [stateM_bind]
      generalize i2cEepromContinueWrite buf s₁ = run at *
      obtain ⟨w, s₂⟩ := run
      have hsucc : w + 1 = (b :: buf).length ↔ w = buf.length := by
        rw [List.length_cons]
        exact Nat.succ_inj
      refine ⟨Nat.succ_le_succ hle, ?_, ?_, fun h => ?_, fun h => ?_⟩
      · show s₂.watched.accepted = s.watched.accepted ++ b :: buf.take w
        rw [show s₂.watched.accepted = _ from haccepted, hbyte, if_pos rfl, List.append_assoc]
        rfl
      · refine hsucc.trans (hall.trans ⟨fun h j hj => ?_, fun h j hj => ?_⟩)
        · cases j with
          | zero => exact hack.symm
          | succ j =>
            have hj := h j (Nat.lt_of_succ_lt_succ hj)
            rwa [hlater] at hj
        · rw [hlater]
          exact h (j + 1) (Nat.succ_lt_succ hj)
      · refine (hacks (hsucc.mp h)).trans ?_
        rw [hlater]
        funext j
        show s.acks (buf.length + j + 1) = s.acks (buf.length + 1 + j)
        rw [Nat.add_right_comm]
      · exact hstopped (fun heq => h (hsucc.mpr heq))

/-! ## The pages -/

/-- The page write behind its first assignment. -/
theorem writePage_run (addr : Addr) (buf : List Byte) (s : Bus) : i2cEepromWritePage addr buf s = (do
    let r ← i2cEepromStartWrite addr
    if r ≠ .success then
      modify fun s => { s with storageErrno := r }
      return 0
    let wr ← i2cEepromContinueWrite buf
    if wr = buf.length then twiStop
    return wr : StateM Bus Nat) { s with storageErrno := .success } := rfl

/-- `i2c_eeprom_write_page`: some of the bytes are accepted, all of them when the device refuses nothing,
    and the bus is stopped. -/
theorem writePage_spec (addr : Addr) (hne : buf ≠ []) (s : Bus) :
    let run := i2cEepromWritePage addr buf s
    run.1 ≤ buf.length ∧ run.2.watched = ⟨none, s.watched.accepted ++ buf.take run.1⟩ ∧
      (run.1 = buf.length ↔ ∃ i, PageGranted s.acks buf.length i) ∧
      ∀ i, PageGranted s.acks buf.length i → run.2.acks = fun j => s.acks (i + 2 + buf.length + j) := by
  let s₀ : Bus := { s with storageErrno := .success }
  obtain ⟨hsame, hstart⟩ := startWrite_spec addr s₀
  rw [writePage_run, stateM_bind]
  replace hsame : _ = s.watched.accepted := hsame
  generalize i2cEepromStartWrite addr s₀ = started at *
  obtain ⟨r, s₁⟩ := started
  rcases hstart with ⟨i, hanswer, hword, hr, hsince, hacks⟩ | ⟨hrefused, hr, hsince⟩
  · obtain rfl : r = .success := hr
    replace hacks : s₁.acks = fun j => s.acks (i + 2 + j) := hacks
    obtain ⟨hle, haccepted, hall, hlater, hstopped⟩ := continueWrite_spec buf (k := 0) (s := s₁) hsince
    rw [if_neg (not_not_intro rfl), stateM_bind]
    generalize i2cEepromContinueWrite buf s₁ = run at *
    obtain ⟨w, s₂⟩ := run
    have hgranted : w = buf.length ↔ ∃ i, PageGranted s.acks buf.length i := by
      refine hall.trans ⟨fun h => ⟨i, hanswer, fun j hj => ?_⟩, ?_⟩
      · cases j with
        | zero => exact hword
        | succ j =>
          have hj := h j hj
          rw [hacks] at hj
          rwa [show i + 1 + (j + 1) = i + 2 + j by omega]
      · rintro ⟨i', hanswer', hbytes⟩ j hj
        obtain rfl : i = i' := Option.some.inj (hanswer.symm.trans hanswer')
        rw [hacks]
        show s.acks (i + 2 + j) = true
        rw [show i + 2 + j = i + 1 + (j + 1) by omega]
        exact hbytes (j + 1) hj
    have htaken : s₂.watched.accepted = s.watched.accepted ++ buf.take w := by
      rw [show s₂.watched.accepted = _ from haccepted]
      exact congrArg (· ++ _) hsame
    by_cases hw : w = buf.length
    · dsimp only
      rw [if_pos hw]
      refine ⟨hle, ?_, hgranted, fun i' hi' => ?_⟩
      · exact (watched_twiStop s₂).trans (congrArg (Watched.mk none) htaken)
      · obtain rfl : i = i' := Option.some.inj (hanswer.symm.trans hi'.1)
        refine (hlater hw).trans ?_
        rw [hacks]
        funext j
        rw [Nat.add_assoc]
    · dsimp only
      rw [if_neg hw]
      refine ⟨hle, ?_, hgranted, fun i' hi' => absurd (hgranted.mpr ⟨i', hi'⟩) hw⟩
      show s₂.watched = ⟨none, s.watched.accepted ++ buf.take w⟩
      rw [← htaken, ← show s₂.watched.since = none from hstopped hw]
  · rw [if_pos hr]
    have hnot : ∀ i, ¬ PageGranted s.acks buf.length i := fun i hi => by
      have hword := hi.2 0 (Nat.zero_le _)
      rw [show s.acks (i + 1 + 0) = false from hrefused i hi.1] at hword
      exact nomatch hword
    refine ⟨Nat.zero_le _, ?_, ⟨fun h => ?_, fun ⟨i, hi⟩ => absurd hi (hnot i)⟩, fun i hi => absurd hi (hnot i)⟩
    · show s₁.watched = ⟨none, s.watched.accepted ++ []⟩
      rw [List.append_nil, ← show s₁.watched.since = none from hsince,
        show s.watched.accepted = s₁.watched.accepted from hsame.symm]
    · exact absurd (List.length_eq_zero_iff.mp (show buf.length = 0 from h.symm)) hne

theorem pagePart_le (dst : Addr) (count : Nat) : pagePart false dst count ≤ count := by
  unfold pagePart
  split <;> omega

/-- The loop: the bytes in front of the refused page are accepted, and some of that page. -/
theorem writeLoop_spec (count : Nat) : ∀ (dst : Addr) (data : List Byte) (written : BitVec 16) (s : Bus),
    data.length = count → s.watched.since = none →
    ∃ n ≤ count, (i2cEepromWriteLoop dst data written s).2.watched =
        ⟨none, s.watched.accepted ++ data.take n⟩ ∧
      (n = count ↔ Granted s.acks dst count) ∧
      (i2cEepromWriteLoop dst data written s).1 =
        if n = count then written + BitVec.ofNat 16 n
        else if written + BitVec.ofNat 16 n = 0 then 0 else -1 := by
  induction count using Nat.strongRecOn with
  | ind count ih =>
    intro dst data written s hlength hstopped
    rw [i2cEepromWriteLoop]
    by_cases hzero : data.length = 0
    · obtain rfl : count = 0 := hlength.symm.trans hzero
      obtain rfl : data = [] := List.eq_nil_of_length_eq_zero hzero
      rw [dif_pos List.length_nil]
      refine ⟨0, le_rfl, ?_, iff_of_true rfl (.done _ _), ?_⟩
      · show s.watched = ⟨none, s.watched.accepted ++ []⟩
        rw [List.append_nil, ← hstopped]
      · show written = _
        simp
    · rw [dif_neg hzero, hlength]
      have hpos := pagePart_pos false dst (hlength ▸ hzero)
      have hle := pagePart_le dst count
      have hpart : (data.take (pagePart false dst count)).length = pagePart false dst count := by
        rw [List.length_take, hlength]
        omega
      have hne : data.take (pagePart false dst count) ≠ [] := List.ne_nil_of_length_pos (by omega)
      obtain ⟨hwle, hwatched, hgranted, hacks⟩ := writePage_spec dst hne s
      rw [hpart] at hwle hgranted hacks
      dsimp only
      rw [stateM_bind]
      generalize i2cEepromWritePage dst (data.take (pagePart false dst count)) s = run at *
      obtain ⟨w, s₁⟩ := run
      replace hwle : w ≤ pagePart false dst count := hwle
      replace hwatched : s₁.watched = ⟨none, s.watched.accepted ++ (data.take _).take w⟩ := hwatched
      rw [List.take_take, Nat.min_eq_left hwle] at hwatched
      dsimp only
      by_cases hw : w = pagePart false dst count
      · obtain ⟨i, hi⟩ := hgranted.mp hw
        have hdrop : (data.drop (pagePart false dst count)).length = count - pagePart false dst count := by
          rw [List.length_drop, hlength]
        obtain ⟨n, hn, hwatched', hgranted', hresult⟩ := ih (count - pagePart false dst count) (by omega)
          (dst + Fin.ofNat 65536 (pagePart false dst count)) (data.drop (pagePart false dst count))
          (written + BitVec.ofNat 16 w) s₁ hdrop (by rw [hwatched])
        replace hacks : s₁.acks = _ := hacks i hi
        rw [if_neg (fun h => h hw)]
        have hiff : pagePart false dst count + n = count ↔ n = count - pagePart false dst count := by omega
        refine ⟨pagePart false dst count + n, by omega, ?_, ?_, ?_⟩
        · refine hwatched'.trans ?_
          rw [hwatched, hw, List.append_assoc, List.take_add]
        · rw [hiff, hgranted', hacks]
          constructor
          · exact .page (by omega) hi
          · intro h
            cases h with
            | done => omega
            | page _ hpage hrest =>
              obtain rfl := Option.some.inj (hi.1.symm.trans hpage.1)
              exact hrest
        · refine hresult.trans ?_
          rw [hw, BitVec.add_assoc, ← BitVec.ofNat_add]
          simp only [hiff]
      · rw [if_pos hw]
        refine ⟨w, by omega, ?_, ?_, ?_⟩
        · exact hwatched
        · refine iff_of_false (by omega) fun h => ?_
          cases h with
          | done => omega
          | page _ hpage _ => exact hw (hgranted.mpr ⟨_, hpage⟩)
        · rw [if_neg (show ¬ w = count by omega)]
          show (if written + BitVec.ofNat 16 w = 0 then written + BitVec.ofNat 16 w else -1) = _
          split
          · next h => exact h
          · rfl

/-! ## The device on the bus -/

section Device

open I2c (Board blockOf)

/-- The board of the driver's model with the device on this bus. -/
structure Agrees (s : Board) (bus : Bus) : Prop where
  acks : s.acks = bus.acks
  storageErrno : s.storageErrno = bus.storageErrno

variable {board : Board} {bus : Bus}

/-- A byte that the device can take: the bus decides. -/
theorem twiWriteByte_agrees {e : I2c.Eeprom} (htake : board.eeprom.take b = some e) (h : Agrees board bus) :
    (I2c.twiWriteByte b board).1 = (twiWriteByte b bus).1 ∧
      Agrees (I2c.twiWriteByte b board).2 (twiWriteByte b bus).2 := by
  have hacks : (fun i => board.acks (i + 1)) = (twiWriteByte b bus).2.acks := by
    rw [h.acks]
    rfl
  have hack : (twiWriteByte b bus).1 = board.acks 0 := by
    rw [h.acks]
    rfl
  rw [hack]
  cases hfirst : board.acks 0 with
  | true =>
    rw [I2c.twiWriteByte_run, hfirst, htake]
    exact ⟨rfl, hacks, h.storageErrno⟩
  | false =>
    rw [I2c.twiWriteByte_run, hfirst]
    exact ⟨rfl, hacks, h.storageErrno⟩

theorem selectDevice_agrees (haddr : addr.val < 2048) : ∀ (n : Nat) {board : Board} {bus : Bus},
    Agrees board bus →
    (I2c.selectDevice (addressByte addr) n board).1 = (selectDevice (addressByte addr) n bus).1 ∧
      Agrees (I2c.selectDevice (addressByte addr) n board).2 (selectDevice (addressByte addr) n bus).2
  | 0, _, _, h => ⟨rfl, h⟩
  | n + 1, board, bus, h => by
    have hstart : Agrees (I2c.twiStart board).2 (twiStart bus).2 := ⟨h.acks, h.storageErrno⟩
    obtain ⟨hsame, hafter⟩ := twiWriteByte_agrees (I2c.take_addressByte haddr rfl) hstart
    rw [I2c.selectDevice, selectDevice, stateM_bind, stateM_bind, stateM_bind, stateM_bind, hsame]
    cases (twiWriteByte (addressByte addr) (twiStart bus).2).1 with
    | true => exact ⟨rfl, hafter⟩
    | false => exact selectDevice_agrees haddr n hafter

theorem continueWrite_agrees : ∀ (buf : List Byte) {board : Board} {bus : Bus},
    board.eeprom.phase = .writing → Agrees board bus →
    (I2c.i2cEepromContinueWrite buf board).1 = (i2cEepromContinueWrite buf bus).1 ∧
      Agrees (I2c.i2cEepromContinueWrite buf board).2 (i2cEepromContinueWrite buf bus).2
  | [], _, _, _, h => ⟨rfl, h⟩
  | b :: buf, board, bus, hphase, h => by
    obtain ⟨e, htake⟩ : ∃ e, board.eeprom.take b = some e := by
      rw [I2c.Eeprom.take, hphase]
      exact ⟨_, rfl⟩
    obtain ⟨hsame, hafter⟩ := twiWriteByte_agrees htake h
    have htaken := (I2c.twiWriteByte_spec b board).2
    rw [I2c.i2cEepromContinueWrite, i2cEepromContinueWrite, stateM_bind, stateM_bind, ← hsame]
    generalize I2c.twiWriteByte b board = run at *
    generalize twiWriteByte b bus = run' at *
    obtain ⟨ack, board₁⟩ := run
    obtain ⟨ack', bus₁⟩ := run'
    cases ack with
    | true =>
      obtain ⟨hresult, hend⟩ := continueWrite_agrees buf (I2c.take_writing hphase (htaken rfl)).1 hafter
      simp only [Bool.not_true, Bool.false_eq_true, if_false]
      rw [stateM_bind, stateM_bind, hresult]
      exact ⟨rfl, hend⟩
    | false => exact ⟨rfl, hafter.acks, rfl⟩

theorem startWrite_agrees (haddr : addr.val < 2048) (h : Agrees board bus) :
    (I2c.i2cEepromStartWrite addr board).1 = (i2cEepromStartWrite addr bus).1 ∧
      Agrees (I2c.i2cEepromStartWrite addr board).2 (i2cEepromStartWrite addr bus).2 := by
  obtain ⟨hsame, hafter⟩ := selectDevice_agrees haddr 11 h
  have hphase := (I2c.selectDevice_spec haddr 11 board).2
  rw [I2c.i2cEepromStartWrite, i2cEepromStartWrite, stateM_bind, stateM_bind, ← hsame]
  generalize I2c.selectDevice (addressByte addr) 11 board = run at *
  generalize selectDevice (addressByte addr) 11 bus = run' at *
  obtain ⟨ack, board₁⟩ := run
  obtain ⟨ack', bus₁⟩ := run'
  cases ack with
  | false => exact ⟨rfl, hafter.acks, hafter.storageErrno⟩
  | true =>
    obtain ⟨e, htake⟩ : ∃ e, board₁.eeprom.take (Fin.ofNat 256 addr.val) = some e := by
      rw [I2c.Eeprom.take, show board₁.eeprom.phase = .wordAddress (blockOf addr) from hphase rfl]
      exact ⟨_, rfl⟩
    obtain ⟨hword, hend⟩ := twiWriteByte_agrees htake hafter
    simp only [Bool.not_true, Bool.false_eq_true, if_false]
    rw [stateM_bind, stateM_bind, hword]
    cases (twiWriteByte (Fin.ofNat 256 addr.val) bus₁).1 with
    | true => exact ⟨rfl, hend⟩
    | false => exact ⟨rfl, hend.acks, hend.storageErrno⟩

/-- A page write to the device is the page write on the bus. -/
theorem writePage_agrees (haddr : addr.val < 2048) (buf : List Byte) (h : Agrees board bus) :
    (I2c.i2cEepromWritePage addr buf board).1 = (i2cEepromWritePage addr buf bus).1 ∧
      Agrees (I2c.i2cEepromWritePage addr buf board).2 (i2cEepromWritePage addr buf bus).2 := by
  let board₀ : Board :=
    { board with storageErrno := .success, pageWrites := board.pageWrites ++ [(addr, buf)] }
  let bus₀ : Bus := { bus with storageErrno := .success }
  have h₀ : Agrees board₀ bus₀ := ⟨h.acks, rfl⟩
  obtain ⟨hsame, hafter⟩ := startWrite_agrees haddr h₀
  have hphase := (I2c.startWrite_spec haddr board₀).2
  have hrun : I2c.i2cEepromWritePage addr buf board = (do
      let r ← I2c.i2cEepromStartWrite addr
      if r ≠ .success then
        modify fun s => { s with storageErrno := r }
        return 0
      let wr ← I2c.i2cEepromContinueWrite buf
      if wr = buf.length then I2c.twiStop
      return wr : StateM Board Nat) board₀ := rfl
  rw [hrun, writePage_run, stateM_bind, stateM_bind, ← hsame]
  generalize I2c.i2cEepromStartWrite addr board₀ = run at *
  generalize i2cEepromStartWrite addr bus₀ = run' at *
  obtain ⟨r, board₁⟩ := run
  obtain ⟨r', bus₁⟩ := run'
  by_cases hr : r = .success
  · obtain ⟨hresult, hend⟩ := continueWrite_agrees buf (hphase hr).2.1 hafter
    rw [if_neg (not_not_intro hr), if_neg (not_not_intro hr), stateM_bind, stateM_bind, hresult]
    split
    · exact ⟨rfl, hend.acks, hend.storageErrno⟩
    · exact ⟨rfl, hend⟩
  · rw [if_pos hr, if_pos hr]
    exact ⟨rfl, hafter.acks, rfl⟩

end Device

/-- The contract holds of exactly the transfers that succeed and whose length fits the result. -/
theorem i2cEepromWrite_contract_iff (acks : Nat → Bool) (storageErrno : I2cEepromErr) (dst : Addr)
    (data : List Byte) : let run := i2cEepromWrite dst data ⟨acks, storageErrno, []⟩
    Contract data run.1 run.2 ↔ Granted acks dst data.length ∧ data.length < 32768 := by
  obtain ⟨n, hn, hwatched, hgranted, hresult⟩ :=
    writeLoop_spec data.length dst data 0 ⟨acks, storageErrno, []⟩ rfl rfl
  rw [i2cEepromWrite]
  generalize i2cEepromWriteLoop dst data 0 ⟨acks, storageErrno, []⟩ = run at *
  obtain ⟨r, s⟩ := run
  replace hwatched : s.watched = ⟨none, data.take n⟩ := hwatched
  replace hresult : r = if n = data.length then 0 + BitVec.ofNat 16 n
    else if 0 + BitVec.ofNat 16 n = 0 then 0 else -1 := hresult
  have hlength : (data.take n).length = n := List.length_take_of_le hn
  rw [show (0 : BitVec 16) + BitVec.ofNat 16 n = BitVec.ofNat 16 n from BitVec.zero_add _] at hresult
  show Contract data r s ↔ _
  constructor
  · intro h
    have hpartly := h.partly
    have hnothing := h.nothing
    rw [hwatched] at hpartly hnothing
    rw [hlength] at hpartly
    -- a transfer that is cut off returns 0 or -1
    have hall : n = data.length := by
      by_contra hcut
      rw [if_neg hcut] at hresult
      rcases Nat.eq_zero_or_pos n with rfl | hpos
      · have hr := hnothing (List.ne_nil_of_length_pos (by omega)) rfl
        rw [hresult] at hr
        exact absurd hr (by decide)
      · have hr := hpartly hpos (by omega)
        rw [hresult] at hr
        split at hr
        · rw [show (0 : BitVec 16).toInt = 0 from rfl] at hr
          omega
        · rw [show (-1 : BitVec 16).toInt = -1 from rfl] at hr
          omega
    refine ⟨hgranted.mp hall, ?_⟩
    have hr := h.full.mpr (by rw [hwatched, hall, List.take_length])
    have hlt := BitVec.two_mul_toInt_lt (x := r)
    omega
  · rintro ⟨hgrant, hfits⟩
    have hall := hgranted.mpr hgrant
    subst hall
    rw [if_pos rfl] at hresult
    rw [List.take_length] at hwatched
    have hr : r.toInt = data.length := by
      have hvalue : (BitVec.ofNat 16 data.length).toNat = data.length := by
        rw [BitVec.toNat_ofNat, Nat.mod_eq_of_lt (by omega)]
      rw [hresult, BitVec.toInt_eq_toNat_of_lt (by omega), hvalue]
    refine ⟨iff_of_true hr (by rw [hwatched]), ?_, ?_, by rw [hwatched]⟩
    · intro _ hlt
      rw [hwatched] at hlt
      exact absurd hlt (Nat.lt_irrefl _)
    · intro hne hnil
      rw [hwatched] at hnil
      exact absurd hnil hne

/-- A device that does not answer: the function returns 0. -/
theorem i2cEepromWrite_no_answer : ¬ Contract [7] (i2cEepromWrite 0 [7] ⟨fun _ => false, .success, []⟩).1
    (i2cEepromWrite 0 [7] ⟨fun _ => false, .success, []⟩).2 := by
  intro h
  have hr := h.nothing (by decide) (by decide +kernel)
  exact absurd hr (by decide +kernel)

end KeyboardFirmware.TwoWire
