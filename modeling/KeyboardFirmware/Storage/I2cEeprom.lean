/-
  `i2c_eeprom.c`: the driver of the serial EEPROM on the two-wire bus, and its `memmove`.

  The bus is given by what it acknowledges.  A byte that is not acknowledged was not taken by the device;
  that a device which is busy with a write cycle acknowledges nothing is a part of this, and so is
  whatever else goes wrong.  The device stores a page write at the stop condition; a new start condition
  drops it.
-/
import KeyboardFirmware.Storage.AvrEeprom

namespace KeyboardFirmware.I2c

open Lib

/-- A data pointer: 16 bits. -/
abbrev Addr := Fin 65536

/-- `EEEXT_PAGE_SIZE`. -/
def eeextPageSize : Nat := 16

/-- `i2c_eeprom_err`. -/
inductive I2cEepromErr where
  | success
  | wselectError
  | rselectError
  | addressError
  | dataError
deriving DecidableEq

/-! ## The device -/

/-- What the device takes the next byte for. -/
inductive Phase where
  | idle
  /-- Behind a start condition: the next byte is the device address. -/
  | started
  /-- Selected for a write: the next byte is the low byte of the address, in this block. -/
  | wordAddress (block : Fin 8)
  | writing
  | reading
deriving DecidableEq

/-- An AT24C164 with its address lines low. -/
structure Eeprom where
  memory : Fin 2048 → Byte
  phase : Phase
  addressCounter : Fin 2048
  /-- The bytes of the page write that is on: the stop condition stores them. -/
  latch : Fin 2048 → Option Byte

namespace Eeprom

/-- The address counter of a page write wraps at the page boundary. -/
def nextInPage (a : Fin 2048) : Fin 2048 :=
  Fin.ofNat 2048 (a.val - a.val % eeextPageSize + (a.val % eeextPageSize + 1) % eeextPageSize)

/-- The contents with the page write that is on. -/
def pending (e : Eeprom) : Fin 2048 → Byte := fun a => (e.latch a).getD (e.memory a)

def start (e : Eeprom) : Eeprom := { e with phase := .started }

def stop (e : Eeprom) : Eeprom :=
  match e.phase with
  | .writing => { e with memory := e.pending, phase := .idle }
  | _ => { e with phase := .idle }

/-- A byte that the device takes; `none` when it is not for this device. -/
def take (e : Eeprom) (b : Byte) : Option Eeprom :=
  match e.phase with
  | .started =>
    if b.val / 16 = 0b1010 then
      some { e with phase := if b.val % 2 = 0 then .wordAddress (Fin.ofNat 8 (b.val / 2)) else .reading }
    else none
  | .wordAddress block =>
    some { e with
      addressCounter := Fin.ofNat 2048 (256 * block.val + b.val), latch := fun _ => none, phase := .writing }
  | .writing =>
    some { e with
      latch := Function.update e.latch e.addressCounter (some b)
      addressCounter := nextInPage e.addressCounter }
  | .reading => none
  | .idle => none

/-- A byte that the device does not take: an address of it selects nothing. -/
def refuse (e : Eeprom) : Eeprom :=
  match e.phase with
  | .started => { e with phase := .idle }
  | _ => e

/-- A byte that the device gives; the last one is not acknowledged. -/
def give (e : Eeprom) (ack : Bool) : Byte × Eeprom :=
  match e.phase with
  | .reading =>
    (e.memory e.addressCounter,
      { e with addressCounter := e.addressCounter + 1, phase := if ack then .reading else .idle })
  | _ => (0xff, e)

end Eeprom

/-- The device, the bus and `storage_errno`. -/
structure Board where
  eeprom : Eeprom
  /-- Whether the coming bytes are acknowledged. -/
  acks : Nat → Bool
  storageErrno : I2cEepromErr
  /-- The calls of `i2c_eeprom_write_page` so far. -/
  pageWrites : List (Addr × List Byte)

/-! ## `twi.c` -/

/-- `twi_start`. -/
def twiStart : StateM Board Unit := modify fun s => { s with eeprom := s.eeprom.start }

/-- `twi_stop`. -/
def twiStop : StateM Board Unit := modify fun s => { s with eeprom := s.eeprom.stop }

/-- `twi_write_byte`: whether it was acknowledged. -/
def twiWriteByte (val : Byte) : StateM Board Bool := modifyGet fun s =>
  match s.acks 0, s.eeprom.take val with
  | true, some e => (true, { s with eeprom := e, acks := fun i => s.acks (i + 1) })
  | _, _ => (false, { s with eeprom := s.eeprom.refuse, acks := fun i => s.acks (i + 1) })

/-- `twi_read_byte`. -/
def twiReadByte (ack : Bool) : StateM Board Byte := modifyGet fun s =>
  ((s.eeprom.give ack).1, { s with eeprom := (s.eeprom.give ack).2 })

/-! ## The driver -/

/-- The device address for a write. -/
def addressByte (addr : Addr) : Byte :=
  Fin.ofNat 256 (0b10100000 ^^^ ((addr.val >>> 7) &&& 0b01111110))

/-- The device address for a read. -/
def readAddress (addr : Addr) : Byte :=
  Fin.ofNat 256 (0b10100001 ^^^ ((addr.val >>> 7) &&& 0b01111110))

/-- The loop of `i2c_eeprom_start_write`: whether the device has answered. -/
def selectDevice (address : Byte) : Nat → StateM Board Bool
  | 0 => return false
  | i + 1 => do
    twiStart
    if ← twiWriteByte address then return true
    selectDevice address i

/-- `i2c_eeprom_start_write`. -/
def i2cEepromStartWrite (addr : Addr) : StateM Board I2cEepromErr := do
  let ack ← selectDevice (addressByte addr) 11
  if !ack then
    twiStop
    return .wselectError
  let ack ← twiWriteByte (Fin.ofNat 256 addr.val)
  if !ack then
    twiStop
    return .addressError
  return .success

/-- `i2c_eeprom_continue_write`: how many bytes were written. -/
def i2cEepromContinueWrite : List Byte → StateM Board Nat
  | [] => return 0
  | b :: buf => do
    let ack ← twiWriteByte b
    if !ack then
      modify fun s => { s with storageErrno := .dataError }
      twiStop
      return 0
    let i ← i2cEepromContinueWrite buf
    return i + 1

/-- `i2c_eeprom_write_page`. -/
def i2cEepromWritePage (addr : Addr) (buf : List Byte) : StateM Board Nat := do
  modify fun s => { s with storageErrno := .success, pageWrites := s.pageWrites ++ [(addr, buf)] }
  let r ← i2cEepromStartWrite addr
  if r ≠ .success then
    modify fun s => { s with storageErrno := r }
    return 0
  let wr ← i2cEepromContinueWrite buf
  if wr = buf.length then twiStop
  return wr

/-- The bytes of `i2c_eeprom_read`: the last one is not acknowledged. -/
def i2cEepromReadBytes : Nat → StateM Board (List Byte)
  | 0 => return []
  | len + 1 => do
    let b ← twiReadByte (len ≠ 0)
    let rest ← i2cEepromReadBytes len
    return b :: rest

/-- `i2c_eeprom_read`: the bytes read. -/
def i2cEepromRead (addr : Addr) (len : Nat) : StateM Board (List Byte) := do
  modify fun s => { s with storageErrno := .success }
  let r ← i2cEepromStartWrite addr
  if r ≠ .success then
    modify fun s => { s with storageErrno := r }
    twiStop
    return []
  twiStart
  let ack ← twiWriteByte (readAddress addr)
  if !ack then
    modify fun s => { s with storageErrno := .rselectError }
    twiStop
    return []
  let buf ← i2cEepromReadBytes len
  twiStop
  return buf

/-- What `i2c_eeprom_read` returns: `-1` as a `size_t` when nothing was read. -/
def readResult (buf : List Byte) : Nat := if buf.length = 0 then 65535 else buf.length

/-- `dst_page_remaining`: forwards from the cursor to the next page boundary, backwards from the byte
    before it to the previous one. -/
def pageRemaining (back : Bool) (dst : Addr) : Nat :=
  let offset := dst.val % eeextPageSize
  if back then if offset = 0 then eeextPageSize else offset
  else eeextPageSize - offset

/-- The bytes of the next page write. -/
def pagePart (back : Bool) (dst : Addr) (count : Nat) : Nat :=
  if count < pageRemaining back dst then count else pageRemaining back dst

theorem pageRemaining_pos (back : Bool) (dst : Addr) : 0 < pageRemaining back dst := by
  have hoff : dst.val % eeextPageSize < eeextPageSize := Nat.mod_lt _ (by decide)
  unfold pageRemaining
  cases back with
  | true =>
    simp only [if_true]
    split
    · decide
    · next h => exact Nat.pos_of_ne_zero h
  | false => exact Nat.sub_pos_of_lt hoff

theorem pagePart_pos (back : Bool) (dst : Addr) {count : Nat} (h : count ≠ 0) :
    0 < pagePart back dst count := by
  have hremaining := pageRemaining_pos back dst
  unfold pagePart
  split <;> omega

/-- The loop of `i2c_eeprom_memmove`; `back` is the negative direction. -/
def i2cEepromMemmoveLoop (back : Bool) (dst src : Addr) (count : Nat) : StateM Board I2cEepromErr :=
  if _h : count = 0 then return .success
  else do
    let n := pagePart back dst count
    let step := Fin.ofNat 65536 n
    let (src, dst) := if back then (src - step, dst - step) else (src, dst)
    let buf ← i2cEepromRead src n
    if readResult buf ≠ n then return (← get).storageErrno
    let w ← i2cEepromWritePage dst buf
    if w ≠ n then return (← get).storageErrno
    let (src, dst) := if back then (src, dst) else (src + step, dst + step)
    i2cEepromMemmoveLoop back dst src (count - n)
termination_by count
decreasing_by
  exact Nat.sub_lt (Nat.pos_of_ne_zero ‹_›) (pagePart_pos back _ ‹_›)

/-- `i2c_eeprom_memmove`: backwards, the cursors point behind the ranges. -/
def i2cEepromMemmove (dst src : Addr) (count : Nat) : StateM Board I2cEepromErr :=
  if src < dst then
    i2cEepromMemmoveLoop true (dst + Fin.ofNat 65536 count) (src + Fin.ofNat 65536 count) count
  else i2cEepromMemmoveLoop false dst src count

/-! ## What a call keeps -/

/-- The contents, the error and the page writes so far are as they were. -/
structure Kept (s s' : Board) : Prop where
  memory : s'.eeprom.memory = s.eeprom.memory
  storageErrno : s'.storageErrno = s.storageErrno
  pageWrites : s'.pageWrites = s.pageWrites

variable {s s₁ s₂ : Board} {addr : Addr} {a : Fin 2048} {b : Byte} {buf : List Byte} {n : Nat} {e : Eeprom}

theorem Kept.refl (s : Board) : Kept s s := ⟨rfl, rfl, rfl⟩

theorem Kept.trans (h : Kept s s₁) (h' : Kept s₁ s₂) : Kept s s₂ :=
  ⟨h'.memory.trans h.memory, h'.storageErrno.trans h.storageErrno, h'.pageWrites.trans h.pageWrites⟩

theorem take_memory (h : s.eeprom.take b = some e) : e.memory = s.eeprom.memory := by
  unfold Eeprom.take at h
  split at h
  · split at h
    · exact (Option.some.inj h) ▸ rfl
    · exact nomatch h
  · exact (Option.some.inj h) ▸ rfl
  · exact (Option.some.inj h) ▸ rfl
  · exact nomatch h
  · exact nomatch h

theorem twiWriteByte_run (b : Byte) (s : Board) :
    twiWriteByte b s = match s.acks 0, s.eeprom.take b with
      | true, some e => (true, { s with eeprom := e, acks := fun i => s.acks (i + 1) })
      | _, _ => (false, { s with eeprom := s.eeprom.refuse, acks := fun i => s.acks (i + 1) }) :=
  rfl

/-- A byte on the bus: an acknowledged one was taken. -/
theorem twiWriteByte_spec (b : Byte) (s : Board) : Kept s (twiWriteByte b s).2 ∧
    ((twiWriteByte b s).1 = true → s.eeprom.take b = some (twiWriteByte b s).2.eeprom) := by
  rw [twiWriteByte_run]
  split
  · next e _ htake => exact ⟨⟨take_memory htake, rfl, rfl⟩, fun _ => htake⟩
  · have hrefuse : s.eeprom.refuse.memory = s.eeprom.memory := by
      unfold Eeprom.refuse
      split <;> rfl
    exact ⟨⟨hrefuse, rfl, rfl⟩, fun h => nomatch h⟩

theorem twiStart_kept (s : Board) : Kept s (twiStart s).2 := ⟨rfl, rfl, rfl⟩

/-- The stop condition, outside a page write. -/
theorem twiStop_kept (s : Board) (h : s.eeprom.phase ≠ .writing) : Kept s (twiStop s).2 := by
  refine ⟨?_, rfl, rfl⟩
  show s.eeprom.stop.memory = _
  unfold Eeprom.stop
  split
  · next hw => exact absurd hw h
  · rfl

/-! ## The address -/

/-- The bits of an address within the device. -/
theorem address_bits (h : addr.val < 2048) : (addressByte addr).val = 160 + 2 * (addr.val / 256) ∧
    (readAddress addr).val = 161 + 2 * (addr.val / 256) := by
  have hbits : ∀ x < 16, (0b10100000 ^^^ (x &&& 0b01111110)) % 256 = 160 + 2 * (x / 2) ∧
      (0b10100001 ^^^ (x &&& 0b01111110)) % 256 = 161 + 2 * (x / 2) := by decide
  have hshift : addr.val >>> 7 = addr.val / 128 := Nat.shiftRight_eq_div_pow _ _
  obtain ⟨hwrite, hread⟩ := hbits (addr.val / 128) (by omega)
  have hhalf : addr.val / 128 / 2 = addr.val / 256 := Nat.div_div_eq_div_mul _ _ _
  rw [← hshift, hshift, hhalf] at hwrite hread
  constructor
  · rw [← hwrite, ← hshift]
    rfl
  · rw [← hread, ← hshift]
    rfl

/-- The block of an address. -/
def blockOf (addr : Addr) : Fin 8 := Fin.ofNat 8 (addr.val / 256)

theorem take_addressByte (h : addr.val < 2048) (hphase : s.eeprom.phase = .started) :
    s.eeprom.take (addressByte addr) = some { s.eeprom with phase := .wordAddress (blockOf addr) } := by
  have hbyte := (address_bits h).1
  have hblock : Fin.ofNat 8 ((addressByte addr).val / 2) = blockOf addr := by
    apply Fin.ext
    show (addressByte addr).val / 2 % 8 = addr.val / 256 % 8
    omega
  rw [Eeprom.take, hphase]
  dsimp only
  rw [if_pos (by omega), if_pos (by omega), hblock]

theorem take_readAddress (h : addr.val < 2048) (hphase : s.eeprom.phase = .started) :
    s.eeprom.take (readAddress addr) = some { s.eeprom with phase := .reading } := by
  have hbyte := (address_bits h).2
  rw [Eeprom.take, hphase]
  dsimp only
  rw [if_pos (by omega), if_neg (by omega)]

/-- The loop of the start: a device that has answered waits for the low byte of the address. -/
theorem selectDevice_spec (h : addr.val < 2048) : ∀ (i : Nat) (s : Board),
    Kept s (selectDevice (addressByte addr) i s).2 ∧ ((selectDevice (addressByte addr) i s).1 = true →
      (selectDevice (addressByte addr) i s).2.eeprom.phase = .wordAddress (blockOf addr))
  | 0, s => ⟨Kept.refl s, fun h => (nomatch h)⟩
  | i + 1, s => by
    obtain ⟨hkept, htaken⟩ := twiWriteByte_spec (addressByte addr) (twiStart s).2
    have hbyte : Kept s (twiWriteByte (addressByte addr) (twiStart s).2).2 := (twiStart_kept s).trans hkept
    rw [selectDevice, stateM_bind, stateM_bind]
    cases hack : (twiWriteByte (addressByte addr) (twiStart s).2).1 with
    | true =>
      have htake := htaken hack
      rw [take_addressByte h rfl] at htake
      refine ⟨hbyte, fun _ => ?_⟩
      show (twiWriteByte (addressByte addr) (twiStart s).2).2.eeprom.phase = _
      rw [← Option.some.inj htake]
    | false =>
      obtain ⟨hrest, hphase⟩ := selectDevice_spec h i (twiWriteByte (addressByte addr) (twiStart s).2).2
      exact ⟨hbyte.trans hrest, hphase⟩

/-- `i2c_eeprom_start_write`: with success, a page write to the address has begun. -/
theorem startWrite_spec (h : addr.val < 2048) (s : Board) :
    let run := i2cEepromStartWrite addr s
    (run.2.storageErrno = s.storageErrno ∧ run.2.pageWrites = s.pageWrites) ∧
      (run.1 = .success → Kept s run.2 ∧ run.2.eeprom.phase = .writing ∧
        run.2.eeprom.addressCounter = Fin.ofNat 2048 addr.val ∧ run.2.eeprom.latch = fun _ => none) := by
  obtain ⟨hselect, hphase⟩ := selectDevice_spec h 11 s
  rw [i2cEepromStartWrite, stateM_bind]
  generalize selectDevice (addressByte addr) 11 s = selected at *
  obtain ⟨ack, s₁⟩ := selected
  cases ack with
  | false => exact ⟨⟨hselect.storageErrno, hselect.pageWrites⟩, fun h => (nomatch h)⟩
  | true =>
    obtain ⟨hkept, htaken⟩ := twiWriteByte_spec (Fin.ofNat 256 addr.val) s₁
    have hboth : Kept s (twiWriteByte (Fin.ofNat 256 addr.val) s₁).2 := hselect.trans hkept
    simp only [Bool.not_true, Bool.false_eq_true, if_false]
    rw [stateM_bind]
    generalize twiWriteByte (Fin.ofNat 256 addr.val) s₁ = written at *
    obtain ⟨ack, s₂⟩ := written
    cases ack with
    | false => exact ⟨⟨hboth.storageErrno, hboth.pageWrites⟩, fun h => (nomatch h)⟩
    | true =>
      have htake := htaken rfl
      rw [Eeprom.take, hphase rfl] at htake
      have heeprom := Option.some.inj htake
      have haddr : Fin.ofNat 2048 (256 * (blockOf addr).val + (Fin.ofNat 256 addr.val).val) =
          Fin.ofNat 2048 addr.val := by
        apply Fin.ext
        show (256 * (addr.val / 256 % 8) + addr.val % 256) % 2048 = addr.val % 2048
        omega
      refine ⟨⟨hboth.storageErrno, hboth.pageWrites⟩, fun _ => ⟨hboth, ?_, ?_, ?_⟩⟩
      · exact (congrArg Eeprom.phase heeprom).symm
      · exact (congrArg Eeprom.addressCounter heeprom).symm.trans haddr
      · exact (congrArg Eeprom.latch heeprom).symm

/-! ## A page write -/

theorem nextInPage_of_lt (h : a.val % eeextPageSize + 1 < eeextPageSize) :
    Eeprom.nextInPage a = a + 1 ∧ (a + 1).val % eeextPageSize = a.val % eeextPageSize + 1 := by
  have hpage : eeextPageSize = 16 := rfl
  have hval : (a + 1).val = (a.val + 1) % 2048 := rfl
  have hle : a.val % eeextPageSize ≤ a.val := Nat.mod_le _ _
  constructor
  · rw [Eeprom.nextInPage, Nat.mod_eq_of_lt h,
      show a.val - a.val % eeextPageSize + (a.val % eeextPageSize + 1) = a.val + 1 by omega]
    rfl
  · rw [hpage] at h ⊢
    omega

/-- One byte more of the page write. -/
theorem take_writing (hphase : s.eeprom.phase = .writing) (htake : s.eeprom.take b = some e) :
    e.phase = .writing ∧ e.addressCounter = Eeprom.nextInPage s.eeprom.addressCounter ∧
      e.pending = Function.update s.eeprom.pending s.eeprom.addressCounter b := by
  rw [Eeprom.take, hphase] at htake
  obtain rfl := Option.some.inj htake
  refine ⟨rfl, rfl, ?_⟩
  funext x
  show (Function.update s.eeprom.latch s.eeprom.addressCounter (some b) x).getD (s.eeprom.memory x) = _
  rw [Function.update_apply, Function.update_apply]
  split <;> rfl

/-- `i2c_eeprom_continue_write`: all the bytes are pending, or there is an error. -/
theorem continueWrite_spec : ∀ (buf : List Byte) {s : Board} {a : Fin 2048}, s.eeprom.phase = .writing →
    (buf ≠ [] → s.eeprom.addressCounter = a ∧ a.val % eeextPageSize + buf.length ≤ eeextPageSize) →
    let run := i2cEepromContinueWrite buf s
    run.2.pageWrites = s.pageWrites ∧
      (run.1 = buf.length → run.2.eeprom.phase = .writing ∧
        run.2.eeprom.pending = writeRange s.eeprom.pending a buf) ∧
      (run.1 ≠ buf.length → run.2.storageErrno = .dataError)
  | [], s, a, hphase, _ => ⟨rfl, fun _ => ⟨hphase, (writeRange_nil _ _).symm⟩, fun h => absurd rfl h⟩
  | b :: buf, s, a, hphase, hpage => by
    obtain ⟨hcounter, hlen⟩ := hpage (List.cons_ne_nil _ _)
    obtain ⟨hkept, htaken⟩ := twiWriteByte_spec b s
    rw [List.length_cons] at hlen
    rw [i2cEepromContinueWrite, stateM_bind]
    generalize twiWriteByte b s = written at *
    obtain ⟨ack, s₁⟩ := written
    cases ack with
    | false =>
      refine ⟨hkept.pageWrites, fun h => ?_, fun _ => rfl⟩
      exact absurd (show (0 : Nat) = buf.length + 1 from h) (Nat.succ_ne_zero _).symm
    | true =>
      obtain ⟨hphase', hnext', hpending⟩ := take_writing hphase (htaken rfl)
      rw [hcounter] at hnext' hpending
      have hpage' : buf ≠ [] → s₁.eeprom.addressCounter = a + 1 ∧
          (a + 1).val % eeextPageSize + buf.length ≤ eeextPageSize := by
        intro hne
        have hpos := List.length_pos_of_ne_nil hne
        obtain ⟨hnext, hmod⟩ := nextInPage_of_lt (show a.val % eeextPageSize + 1 < eeextPageSize by omega)
        rw [hmod]
        exact ⟨hnext'.trans hnext, by omega⟩
      obtain ⟨hlog, hall, herror⟩ := continueWrite_spec buf hphase' hpage'
      simp only [Bool.not_true, Bool.false_eq_true, if_false]
      rw [stateM_bind]
      refine ⟨hlog.trans hkept.pageWrites, ?_, ?_⟩
      · intro h
        obtain ⟨hend, hbytes⟩ := hall (Nat.succ.inj h)
        have hsmall : eeextPageSize = 16 := rfl
        rw [writeRange_cons _ _ _ (by rw [List.length_cons]; omega), ← hpending]
        exact ⟨hend, hbytes⟩
      · intro h
        exact herror fun heq => h (congrArg Nat.succ heq)

/-- `i2c_eeprom_write_page`, within a page: the bytes are stored, or there is an error. -/
theorem writePage_spec (hbuf : buf ≠ []) (hend : addr.val + buf.length ≤ 2048)
    (hpage : addr.val % eeextPageSize + buf.length ≤ eeextPageSize) (s : Board) :
    let run := i2cEepromWritePage addr buf s
    run.2.pageWrites = s.pageWrites ++ [(addr, buf)] ∧
      (run.1 = buf.length →
        run.2.eeprom.memory = writeRange s.eeprom.memory (Fin.ofNat 2048 addr.val) buf) ∧
      (run.1 ≠ buf.length → run.2.storageErrno ≠ .success) := by
  have hpos := List.length_pos_of_ne_nil hbuf
  let s₀ : Board := { s with storageErrno := .success, pageWrites := s.pageWrites ++ [(addr, buf)] }
  obtain ⟨⟨-, hlog⟩, hstarted⟩ := startWrite_spec (show addr.val < 2048 by omega) s₀
  have hrun : i2cEepromWritePage addr buf s = (do
      let r ← i2cEepromStartWrite addr
      if r ≠ .success then
        modify fun s => { s with storageErrno := r }
        return 0
      let wr ← i2cEepromContinueWrite buf
      if wr = buf.length then twiStop
      return wr : StateM Board Nat) s₀ := rfl
  rw [hrun, stateM_bind]
  generalize i2cEepromStartWrite addr s₀ = started at *
  obtain ⟨r, s₁⟩ := started
  by_cases hr : r = .success
  · obtain ⟨hkept, hphase, hcounter, hlatch⟩ := hstarted hr
    have hpending : s₁.eeprom.pending = s.eeprom.memory := by
      funext x
      show (s₁.eeprom.latch x).getD (s₁.eeprom.memory x) = _
      rw [hlatch, hkept.memory]
      rfl
    have hvalue : (Fin.ofNat 2048 addr.val).val = addr.val := Nat.mod_eq_of_lt (by omega)
    obtain ⟨hlog', hall, herror⟩ := continueWrite_spec buf hphase fun _ => ⟨hcounter, by rwa [hvalue]⟩
    rw [if_neg (not_not_intro hr), stateM_bind]
    generalize i2cEepromContinueWrite buf s₁ = written at *
    obtain ⟨wr, s₂⟩ := written
    dsimp only
    by_cases hwr : wr = buf.length
    · obtain ⟨hwriting, hbytes⟩ := hall hwr
      rw [if_pos hwr]
      refine ⟨hlog'.trans hlog, fun _ => ?_, fun h => absurd hwr h⟩
      show s₂.eeprom.stop.memory = _
      rw [Eeprom.stop, hwriting, ← hpending]
      exact hbytes
    · rw [if_neg hwr]
      refine ⟨hlog'.trans hlog, fun h => absurd h hwr, fun _ h => ?_⟩
      exact nomatch (herror hwr).symm.trans h
  · rw [if_pos hr]
    refine ⟨hlog, fun h => absurd (show 0 = buf.length from h) (by omega), fun _ => hr⟩

/-! ## A read -/

theorem readBytes_spec : ∀ (n : Nat) {s : Board} {a : Fin 2048},
    (n ≠ 0 → s.eeprom.phase = .reading ∧ s.eeprom.addressCounter = a) →
    (i2cEepromReadBytes n s).1 = readRange s.eeprom.memory a n ∧ Kept s (i2cEepromReadBytes n s).2 ∧
      (s.eeprom.phase ≠ .writing → (i2cEepromReadBytes n s).2.eeprom.phase ≠ .writing)
  | 0, s, a, _ => ⟨rfl, Kept.refl s, id⟩
  | n + 1, s, a, hread => by
    obtain ⟨hphase, hcounter⟩ := hread (Nat.succ_ne_zero n)
    let s₁ := (twiReadByte (n ≠ 0) s).2
    have hgive : s.eeprom.give (n ≠ 0) = (s.eeprom.memory a, { s.eeprom with
        addressCounter := a + 1, phase := if n ≠ 0 then .reading else .idle }) := by
      rw [Eeprom.give, hphase, hcounter]
      by_cases hlast : n ≠ 0 <;> simp [hlast]
    have hbyte : (twiReadByte (n ≠ 0) s).1 = s.eeprom.memory a := congrArg Prod.fst hgive
    have heeprom : s₁.eeprom = { s.eeprom with
        addressCounter := a + 1, phase := if n ≠ 0 then .reading else .idle } := congrArg Prod.snd hgive
    have hkept : Kept s s₁ := ⟨by rw [heeprom], rfl, rfl⟩
    have hphase' : s₁.eeprom.phase = if n ≠ 0 then .reading else .idle := congrArg Eeprom.phase heeprom
    obtain ⟨hrest, hkept', hend⟩ := readBytes_spec n (s := s₁) (a := a + 1) fun hmore =>
      ⟨by rw [hphase', if_pos hmore], congrArg Eeprom.addressCounter heeprom⟩
    refine ⟨?_, hkept.trans hkept', fun _ => hend ?_⟩
    · rw [readRange_succ, ← hbyte, ← hkept.memory, ← hrest]
      rfl
    · rw [hphase']
      split <;> simp

/-- `i2c_eeprom_read`: the bytes at the address and behind, or there is an error. -/
theorem read_spec (hn : n ≠ 0) (hsmall : n < 65535) (haddr : addr.val < 2048) (s : Board) :
    let run := i2cEepromRead addr n s
    run.2.pageWrites = s.pageWrites ∧
      (readResult run.1 = n → run.1 = readRange s.eeprom.memory (Fin.ofNat 2048 addr.val) n ∧
        run.2.eeprom.memory = s.eeprom.memory) ∧
      (readResult run.1 ≠ n → run.2.storageErrno ≠ .success) := by
  have hnothing : readResult [] ≠ n := fun h => absurd h (by
    show (65535 : Nat) ≠ n
    omega)
  let s₀ : Board := { s with storageErrno := .success }
  obtain ⟨⟨-, hlog⟩, hstarted⟩ := startWrite_spec haddr s₀
  have hrun : i2cEepromRead addr n s = (do
      let r ← i2cEepromStartWrite addr
      if r ≠ .success then
        modify fun s => { s with storageErrno := r }
        twiStop
        return []
      twiStart
      let ack ← twiWriteByte (readAddress addr)
      if !ack then
        modify fun s => { s with storageErrno := .rselectError }
        twiStop
        return []
      let buf ← i2cEepromReadBytes n
      twiStop
      return buf : StateM Board (List Byte)) s₀ := rfl
  rw [hrun, stateM_bind]
  generalize i2cEepromStartWrite addr s₀ = started at *
  obtain ⟨r, s₁⟩ := started
  by_cases hr : r = .success
  · obtain ⟨hkept, -, hcounter, -⟩ := hstarted hr
    obtain ⟨hkept', htaken⟩ := twiWriteByte_spec (readAddress addr) (twiStart s₁).2
    rw [if_neg (not_not_intro hr), stateM_bind, stateM_bind]
    have htake := take_readAddress haddr (s := (twiStart s₁).2) rfl
    generalize twiWriteByte (readAddress addr) (twiStart s₁).2 = written at *
    obtain ⟨ack, s₂⟩ := written
    have hlog' : s₂.pageWrites = s.pageWrites := hkept'.pageWrites.trans hlog
    cases ack with
    | false => exact ⟨hlog', fun h => absurd h hnothing, fun _ h => nomatch h⟩
    | true =>
      have heeprom : s₂.eeprom = _ := (Option.some.inj (htake.symm.trans (htaken rfl))).symm
      have hphase : s₂.eeprom.phase = .reading := congrArg Eeprom.phase heeprom
      obtain ⟨hbytes, hread, hend⟩ := readBytes_spec n (s := s₂) fun _ =>
        ⟨hphase, (congrArg Eeprom.addressCounter heeprom).trans hcounter⟩
      have hmemory : s₂.eeprom.memory = s.eeprom.memory := hkept'.memory.trans hkept.memory
      have hstop := twiStop_kept (i2cEepromReadBytes n s₂).2 (hend (by rw [hphase]; simp))
      have hall := hread.trans hstop
      simp only [Bool.not_true, Bool.false_eq_true, if_false]
      rw [stateM_bind, stateM_bind]
      refine ⟨hall.pageWrites.trans hlog', fun _ => ⟨?_, hall.memory.trans hmemory⟩, fun h => ?_⟩
      · exact hbytes.trans (by rw [hmemory])
      · refine absurd ?_ h
        show readResult (i2cEepromReadBytes n s₂).1 = n
        rw [hbytes, readResult, readRange_length, if_neg hn]
  · rw [if_pos hr]
    exact ⟨hlog, fun h => absurd h hnothing, fun _ => hr⟩

/-! ## The move -/

/-- A page write stays within one page of the device and within the buffer. -/
def WithinPage (w : Addr × List Byte) : Prop :=
  w.1.val % eeextPageSize + w.2.length ≤ eeextPageSize ∧ w.2.length ≤ eeextPageSize

instance (w : Addr × List Byte) : Decidable (WithinPage w) := inferInstanceAs (Decidable (_ ∧ _))

/-- The page writes that a call has issued are within their pages, and if it reports success, the
    contents are `m`. -/
def Moves (s : Board) (m : Fin 2048 → Byte) (run : I2cEepromErr × Board) : Prop :=
  (run.1 = .success → run.2.eeprom.memory = m) ∧
    ∃ issued, run.2.pageWrites = s.pageWrites ++ issued ∧ ∀ w ∈ issued, WithinPage w

/-- A chunk: the read, the page write, and then the rest. -/
theorem chunk_moves {src dst : Addr} {m : Fin 2048 → Byte} {rest : StateM Board I2cEepromErr}
    (hn : n ≠ 0) (hsrc : src.val + n ≤ 2048) (hdst : dst.val + n ≤ 2048)
    (hpage : dst.val % eeextPageSize + n ≤ eeextPageSize) (s : Board)
    (hrest : ∀ s', s'.eeprom.memory =
      moveRange s.eeprom.memory (Fin.ofNat 2048 dst.val) (Fin.ofNat 2048 src.val) n → Moves s' m (rest s')) :
    Moves s m ((do
      let buf ← i2cEepromRead src n
      if readResult buf ≠ n then return (← get).storageErrno
      let w ← i2cEepromWritePage dst buf
      if w ≠ n then return (← get).storageErrno
      rest : StateM Board I2cEepromErr) s) := by
  have hsize : eeextPageSize = 16 := rfl
  obtain ⟨hlog, hread, herror⟩ := read_spec hn (by omega) (show src.val < 2048 by omega) s
  rw [stateM_bind]
  generalize i2cEepromRead src n s = read at *
  obtain ⟨buf, s₁⟩ := read
  by_cases hall : readResult buf = n
  · obtain ⟨hbuf, hmemory⟩ := hread hall
    have hlen : buf.length = n := (congrArg List.length hbuf).trans (readRange_length _ _ _)
    have hne : buf ≠ [] := fun h => hn (hlen.symm.trans (congrArg List.length h))
    have hwithin : WithinPage (dst, buf) := ⟨by rwa [hlen], by rw [hlen]; omega⟩
    obtain ⟨hlog', hwrite, herror'⟩ := writePage_spec hne (by rwa [hlen]) hwithin.1 s₁
    rw [if_neg (not_not_intro hall), stateM_bind]
    generalize i2cEepromWritePage dst buf s₁ = written at *
    obtain ⟨w, s₂⟩ := written
    have hissued : s₂.pageWrites = s.pageWrites ++ [(dst, buf)] := by
      rw [← hlog]
      exact hlog'
    by_cases hw : w = n
    · have hbytes := hwrite (hw.trans hlen.symm)
      have hmoved : s₂.eeprom.memory =
          moveRange s.eeprom.memory (Fin.ofNat 2048 dst.val) (Fin.ofNat 2048 src.val) n := by
        rw [moveRange, ← hbuf, ← hmemory]
        exact hbytes
      obtain ⟨hmoves, issued, hmore, hin⟩ := hrest s₂ hmoved
      rw [if_neg (not_not_intro hw)]
      refine ⟨hmoves, (dst, buf) :: issued, ?_, ?_⟩
      · rw [hmore, hissued, List.append_assoc]
        rfl
      · intro x hx
        rcases List.mem_cons.mp hx with rfl | hx
        · exact hwithin
        · exact hin x hx
    · rw [if_pos hw]
      refine ⟨fun h => absurd h (herror' fun heq => hw (heq.trans hlen)), [(dst, buf)], hissued, ?_⟩
      intro x hx
      exact List.mem_singleton.mp hx ▸ hwithin
  · rw [if_pos hall]
    exact ⟨fun h => absurd h (herror hall), [], hlog.trans (List.append_nil _).symm, fun _ hx => by cases hx⟩

theorem moves_nothing (s : Board) (m : Fin 2048 → Byte) (h : s.eeprom.memory = m) :
    Moves s m (.success, s) :=
  ⟨fun _ => h, [], (List.append_nil _).symm, fun _ hx => nomatch hx⟩

theorem pagePart_eq (back : Bool) (dst : Addr) (count : Nat) :
    pagePart back dst count = min count (pageRemaining back dst) := by
  unfold pagePart
  split <;> omega

theorem forward_moves (dst src : Addr) (count : Nat) (s : Board) (hle : dst ≤ src)
    (hend : src.val + count ≤ 2048) : Moves s
      (moveRange s.eeprom.memory (Fin.ofNat 2048 dst.val) (Fin.ofNat 2048 src.val) count)
      (i2cEepromMemmoveLoop false dst src count s) := by
  induction count using Nat.strong_induction_on generalizing dst src s with
  | _ count ih =>
  rw [i2cEepromMemmoveLoop]
  split
  · next hzero =>
    rw [hzero]
    exact moves_nothing s _ rfl
  · next hcount =>
    have hsize : eeextPageSize = 16 := rfl
    have hremaining : pageRemaining false dst = eeextPageSize - dst.val % eeextPageSize := rfl
    have hpos := pagePart_pos false dst hcount
    have hpart := pagePart_eq false dst count
    have hbelow : dst.val ≤ src.val := hle
    simp only [Bool.false_eq_true, if_false]
    generalize pagePart false dst count = n at *
    have hsrc : (src + Fin.ofNat 65536 n).val = src.val + n := val_add_ofNat (by omega)
    have hdst : (dst + Fin.ofNat 65536 n).val = dst.val + n := val_add_ofNat (by omega)
    apply chunk_moves (by omega) (by omega) (by omega) (by omega)
    intro s' hmoved
    have hmove : moveRange s.eeprom.memory (Fin.ofNat 2048 dst.val) (Fin.ofNat 2048 src.val) count =
        moveRange s'.eeprom.memory (Fin.ofNat 2048 (dst + Fin.ofNat 65536 n).val)
          (Fin.ofNat 2048 (src + Fin.ofNat 65536 n).val) (count - n) := by
      have hle' : Fin.ofNat 2048 dst.val ≤ Fin.ofNat 2048 src.val := by
        show dst.val % 2048 ≤ src.val % 2048
        omega
      have hend' : (Fin.ofNat 2048 src.val).val + (n + (count - n)) ≤ 2048 := by
        show src.val % 2048 + (n + (count - n)) ≤ 2048
        omega
      have hfront := moveRange_front s.eeprom.memory hle' hend'
      rw [ofNat_add_ofNat, ofNat_add_ofNat, ← hmoved, show n + (count - n) = count by omega] at hfront
      rw [hsrc, hdst, hfront]
    rw [hmove]
    apply ih (count - n) (by omega)
    · rw [Fin.le_def, hsrc, hdst]
      omega
    · omega

theorem backward_moves (dst src : Addr) (count : Nat) (s : Board) (hle : src ≤ dst)
    (hcursor : count ≤ src.val) (hend : dst.val ≤ 2048) : Moves s
      (moveRange s.eeprom.memory (Fin.ofNat 2048 (dst.val - count)) (Fin.ofNat 2048 (src.val - count)) count)
      (i2cEepromMemmoveLoop true dst src count s) := by
  induction count using Nat.strong_induction_on generalizing dst src s with
  | _ count ih =>
  rw [i2cEepromMemmoveLoop]
  split
  · next hzero =>
    rw [hzero]
    exact moves_nothing s _ rfl
  · next hcount =>
    have hsize : eeextPageSize = 16 := rfl
    have hremaining : pageRemaining true dst =
        if dst.val % eeextPageSize = 0 then eeextPageSize else dst.val % eeextPageSize := rfl
    have hpos := pagePart_pos true dst hcount
    have hpart := pagePart_eq true dst count
    have hbelow : src.val ≤ dst.val := hle
    simp only [if_true]
    generalize pagePart true dst count = n at *
    have hcount' : n ≤ count := hpart ▸ Nat.min_le_left _ _
    have hn : n ≤ pageRemaining true dst := hpart ▸ Nat.min_le_right _ _
    have hsmall : n ≤ 16 := by
      have hmod := Nat.mod_lt dst.val (show 0 < eeextPageSize by decide)
      split at hremaining <;> omega
    have hstep : (Fin.ofNat 65536 n).val = n := Nat.mod_eq_of_lt (by omega)
    have hsrc : (src - Fin.ofNat 65536 n).val = src.val - n := by
      rw [Fin.sub_val_of_le (by rw [Fin.le_def, hstep]; omega), hstep]
    have hdst : (dst - Fin.ofNat 65536 n).val = dst.val - n := by
      rw [Fin.sub_val_of_le (by rw [Fin.le_def, hstep]; omega), hstep]
    have hpage : (dst.val - n) % eeextPageSize + n ≤ eeextPageSize := by
      rw [hsize] at hremaining ⊢
      split at hremaining <;> omega
    apply chunk_moves (by omega) (by omega) (by omega) (by rwa [hdst])
    intro s' hmoved
    have hmove : moveRange s.eeprom.memory (Fin.ofNat 2048 (dst.val - count))
        (Fin.ofNat 2048 (src.val - count)) count = moveRange s'.eeprom.memory
          (Fin.ofNat 2048 ((dst - Fin.ofNat 65536 n).val - (count - n)))
          (Fin.ofNat 2048 ((src - Fin.ofNat 65536 n).val - (count - n))) (count - n) := by
      have hle' : Fin.ofNat 2048 (src.val - count) ≤ Fin.ofNat 2048 (dst.val - count) := by
        show (src.val - count) % 2048 ≤ (dst.val - count) % 2048
        omega
      have hend' : (Fin.ofNat 2048 (dst.val - count)).val + ((count - n) + n) ≤ 2048 := by
        show (dst.val - count) % 2048 + ((count - n) + n) ≤ 2048
        omega
      have hback := moveRange_back s.eeprom.memory hle' hend'
      rw [ofNat_add_ofNat, ofNat_add_ofNat, show dst.val - count + (count - n) = dst.val - n by omega,
        show src.val - count + (count - n) = src.val - n by omega, ← hsrc, ← hdst, ← hmoved,
        show count - n + n = count by omega] at hback
      rw [hback, hsrc, hdst, show dst.val - n - (count - n) = dst.val - count by omega,
        show src.val - n - (count - n) = src.val - count by omega]
    rw [hmove]
    apply ih (count - n) (by omega)
    · rw [Fin.le_def, hsrc, hdst]
      omega
    · omega
    · omega

theorem i2cEepromMemmove_moves (dst src : Addr) (count : Nat) (s : Board)
    (hdst : dst.val + count ≤ 2048) (hsrc : src.val + count ≤ 2048) : Moves s
      (moveRange s.eeprom.memory (Fin.ofNat 2048 dst.val) (Fin.ofNat 2048 src.val) count)
      (i2cEepromMemmove dst src count s) := by
  rw [i2cEepromMemmove]
  split
  · next hlt =>
    have hbelow : src.val < dst.val := hlt
    have hsrc' : (src + Fin.ofNat 65536 count).val = src.val + count := val_add_ofNat (by omega)
    have hdst' : (dst + Fin.ofNat 65536 count).val = dst.val + count := val_add_ofNat (by omega)
    have hle : src + Fin.ofNat 65536 count ≤ dst + Fin.ofNat 65536 count := by
      rw [Fin.le_def, hsrc', hdst']
      omega
    have hback := backward_moves _ _ count s hle (by omega) (by omega)
    rw [hsrc', hdst', Nat.add_sub_cancel, Nat.add_sub_cancel] at hback
    exact hback
  · next hge => exact forward_moves dst src count s (not_lt.mp hge) hsrc

/-- **The moves are `memmove`**: when `i2c_eeprom_memmove` reports success, the range has been moved, and
    in any case each page write stays within a page and the buffer; `avr_eeprom_memmove` always moves the
    range. -/
theorem memmoves_exact (dst src : Addr) (count : Nat) :
    (∀ s : Board, dst.val + count ≤ 2048 → src.val + count ≤ 2048 →
      let run := i2cEepromMemmove dst src count s
      (run.1 = .success → run.2.eeprom.memory =
        moveRange s.eeprom.memory (Fin.ofNat 2048 dst.val) (Fin.ofNat 2048 src.val) count) ∧
      ∃ issued, run.2.pageWrites = s.pageWrites ++ issued ∧ ∀ w ∈ issued, WithinPage w) ∧
    ∀ m : Avr.Addr → Byte, dst.val + count ≤ 65536 → src.val + count ≤ 65536 →
      (Avr.avrEepromMemmove dst src count m).2 = moveRange m dst src count := by
  constructor
  · intro s hdst hsrc
    exact i2cEepromMemmove_moves dst src count s hdst hsrc
  · intro m hdst hsrc
    exact Avr.avrEepromMemmove_exact m dst src count hdst hsrc

/-- A device that holds the low byte of each address, on a bus where the first byte is not acknowledged. -/
def busyOnce : Board where
  eeprom := ⟨fun a => Fin.ofNat 256 a.val, .idle, 0, fun _ => none⟩
  acks := fun i => i ≠ 0
  storageErrno := .success
  pageWrites := []

/-- Twenty bytes moved up by one, over the end of a page. -/
theorem memmoves_exact_twenty :
    (i2cEepromMemmove 1 0 20 busyOnce).2.eeprom.memory = moveRange busyOnce.eeprom.memory 1 0 20 ∧
      (Avr.avrEepromMemmove 1 0 20 fun a => Fin.ofNat 256 a.val).2 =
        moveRange (fun a : Addr => Fin.ofNat 256 a.val) 1 0 20 := by
  obtain ⟨hi2c, havr⟩ := memmoves_exact 1 0 20
  exact ⟨(hi2c busyOnce (by decide) (by decide)).1 (by decide +kernel), havr _ (by decide) (by decide)⟩

end KeyboardFirmware.I2c
