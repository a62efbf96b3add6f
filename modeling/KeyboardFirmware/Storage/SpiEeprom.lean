/-
  `spi_eeprom.c`: the driver of the SPI EEPROM.

  A function of the driver is a state transformer of the `Device`, and its contract is a triple.  Between
  two calls the chip is deselected and the run so far is orderly (`Ready`); whether it is also idle
  (`Idle`) is what the waits are for.  Reading and writing a page ask for it, the wait gives it, and
  every write takes it away.
-/
import Mathlib
import KeyboardFirmware.Storage.Chip

namespace KeyboardFirmware.Spi

open Std.Do

set_option mvcgen.warning false

/-! ## Signals -/

/-- A signal to the chip, and what it makes of it. -/
def Device.signal (d : Device) (s : Signal) (chip : Chip) : Device :=
  { d with chip := chip, sent := d.sent ++ [⟨d.chip, s⟩] }

/-- A write cycle that begins takes the next length. -/
def Device.cyclesAfter (d : Device) : Nat → Nat :=
  match d.chip.phase with
  | .writing _ => fun i => d.cycles (i + 1)
  | _ => d.cycles

/-- `spi_slave_on`. -/
def spiSlaveOn : StateM Device Unit := modify fun d => d.signal .slaveOn d.chip.select

/-- `spi_slave_off`. -/
def spiSlaveOff : StateM Device Unit := modify fun d =>
  { d.signal .slaveOff (d.chip.deselect (d.cycles 0)) with cycles := d.cyclesAfter }

variable (arch : Arch)

/-- `spi_transfer`. -/
def spiTransfer (byteData : Byte) : StateM Device Byte := modifyGet fun d =>
  ((d.chip.transfer arch.pageSize byteData).1,
    d.signal (.byte byteData) (d.chip.transfer arch.pageSize byteData).2)

/-! ## The driver -/

/-- `storage_err`. -/
abbrev StorageErr := Byte

/-- `SPI_EEPROM_OK`. -/
def spiEepromOk : StorageErr := 0

/-- The high and the low byte of an address, as they are sent. -/
def addrHigh (addr : Addr) : Byte := Fin.ofNat 256 (addr.val / 256)
def addrLow (addr : Addr) : Byte := Fin.ofNat 256 addr.val

/-- `spi_enable_write`. -/
def spiEnableWrite : StateM Device Unit := do
  spiSlaveOn
  let _ ← spiTransfer arch Command.wren.code
  spiSlaveOff

/-- `spi_eeprom_read_status`. -/
def spiEepromReadStatus : StateM Device Byte := do
  spiSlaveOn
  let _ ← spiTransfer arch Command.rdsr.code
  let rv ← spiTransfer arch 0xff
  spiSlaveOff
  return rv

/-- `spi_eeprom_continue_write`: the length comes back as an `int8_t`. -/
def spiEepromContinueWrite (buf : List Byte) : StateM Device Int8 := do
  for b in buf do
    let _ ← spiTransfer arch b
  return Int8.ofNat buf.length

/-- `spi_eeprom_start_write`. -/
def spiEepromStartWrite (addr : Addr) : StateM Device StorageErr := do
  spiEnableWrite arch
  spiSlaveOn
  let _ ← spiTransfer arch Command.write.code
  let _ ← spiTransfer arch (addrHigh addr)
  let _ ← spiTransfer arch (addrLow addr)
  return spiEepromOk

/-- The bytes of `spi_eeprom_read`. -/
def spiEepromReadBytes : Nat → StateM Device (List Byte)
  | 0 => return []
  | len + 1 => do
    let b ← spiTransfer arch 0xff
    let rest ← spiEepromReadBytes len
    return b :: rest

/-- `spi_eeprom_read`: the buffer, whose length is what the function returns. -/
def spiEepromRead (addr : Addr) (len : Nat) : StateM Device (List Byte) := do
  spiSlaveOn
  let _ ← spiTransfer arch Command.read.code
  let _ ← spiTransfer arch (addrHigh addr)
  let _ ← spiTransfer arch (addrLow addr)
  let buf ← spiEepromReadBytes arch len
  spiSlaveOff
  return buf

/-- `spi_eeprom_read_byte`. -/
def spiEepromReadByte (addr : Addr) : StateM Device Byte := do
  let buf ← spiEepromRead arch addr 1
  return buf.getD 0 0

/-- `spi_eeprom_write_page`. -/
def spiEepromWritePage (addr : Addr) (buf : List Byte) : StateM Device Int8 := do
  let mut result : Int8 := 0
  let err ← spiEepromStartWrite arch addr
  if spiEepromOk ≠ err then
    modify fun d => { d with storageErrno := err }
  else
    result ← spiEepromContinueWrite arch buf
  spiSlaveOff
  return result

/-! ## Between two signals -/

/-- The chip is in phase `p` with its write cycle at `cycle`, and the signals so far keep the protocol. -/
structure BusAt (p : Phase) (cycle : Option Nat) (chip : Chip) (sent : List Sent) : Prop where
  phase : chip.phase = p
  cycle : chip.cycle = cycle
  orderly : Orderly sent

/-- The stores elsewhere do not matter. -/
abbrev At (p : Phase) (cycle : Option Nat) (d : Device) : Prop := BusAt p cycle d.chip d.sent

variable {arch} {d : Device} {p q : Phase} {cycle : Option Nat} {b : Byte}

theorem slaveOn_chip (h : d.chip.phase = .deselected) :
    (spiSlaveOn d).2.chip = { d.chip with phase := .command } := by
  show d.chip.select = _
  rw [Chip.select, h]

theorem command_chip (arch : Arch) (h : d.chip.phase = .command) :
    (spiTransfer arch b d).2.chip = { d.chip with phase := d.chip.afterCommand b } := by
  show (d.chip.transfer arch.pageSize b).2 = _
  rw [Chip.transfer, h]

theorem At.slaveOn (h : At .deselected cycle d) : At .command cycle (spiSlaveOn d).2 := by
  have horderly : Orderly (d.sent ++ [⟨d.chip, .slaveOn⟩]) :=
    h.orderly.snoc h.phase fun hw => (nomatch hw)
  have hchip := slaveOn_chip h.phase
  exact ⟨by rw [hchip], by rw [hchip]; exact h.cycle, horderly⟩

/-- The command byte. -/
theorem At.command (arch : Arch) (h : At .command cycle d) (ha : CommandAllowed d.chip b)
    (hw : b = Command.write.code → (commands d.sent).getLast? = some Command.wren.code)
    (hq : d.chip.afterCommand b = q) : At q cycle (spiTransfer arch b d).2 := by
  have hselected : d.chip.phase ≠ .deselected := by rw [h.phase]; decide
  have horderly : Orderly (d.sent ++ [⟨d.chip, .byte b⟩]) :=
    h.orderly.snoc ⟨hselected, fun _ => ha⟩ fun hx => hw (by simpa [Sent.command, h.phase] using hx)
  have hchip := command_chip arch (b := b) h.phase
  exact ⟨by rw [hchip]; exact hq, by rw [hchip]; exact h.cycle, horderly⟩

/-- A byte inside a command that is no status read. -/
theorem At.byte (arch : Arch) (h : At p cycle d) (hp : p ≠ .deselected ∧ p ≠ .command ∧ p ≠ .status)
    (hq : (d.chip.transfer arch.pageSize b).2.phase = q) : At q cycle (spiTransfer arch b d).2 := by
  obtain ⟨hselected, hinside, hstatus⟩ := h.phase ▸ hp
  have horderly : Orderly (d.sent ++ [⟨d.chip, .byte b⟩]) :=
    h.orderly.snoc ⟨hselected, fun hc => absurd hc hinside⟩ fun hx => by
      simp [Sent.command, hinside] at hx
  exact ⟨hq, (d.chip.transfer_cycle hstatus).trans h.cycle, horderly⟩

/-- The byte that answers a status read. -/
theorem At.status (arch : Arch) (h : At .status cycle d) : At .status d.chip.polled.cycle (spiTransfer arch b d).2 := by
  have hselected : d.chip.phase ≠ .deselected := by rw [h.phase]; decide
  have hinside : d.chip.phase ≠ .command := by rw [h.phase]; decide
  have horderly : Orderly (d.sent ++ [⟨d.chip, .byte b⟩]) :=
    h.orderly.snoc ⟨hselected, fun hc => absurd hc hinside⟩ fun hx => by
      simp [Sent.command, hinside] at hx
  have htransfer : d.chip.transfer arch.pageSize b = (d.chip.statusByte, d.chip.polled) := by
    rw [Chip.transfer, h.phase]
  have hphase : d.chip.polled.phase = .status := by rw [Chip.polled_phase, h.phase]
  exact ⟨(congrArg (·.2.phase) htransfer).trans hphase, congrArg (·.2.cycle) htransfer, horderly⟩

/-- Deselecting, outside a page write. -/
theorem At.slaveOff (h : At p cycle d) (hp : p ≠ .deselected) (hw : ∀ a, p ≠ .writing a) :
    At .deselected cycle (spiSlaveOff d).2 := by
  obtain ⟨rfl, rfl, horderly⟩ := h
  have horderly : Orderly (d.sent ++ [⟨d.chip, .slaveOff⟩]) :=
    horderly.snoc hp fun hx => (nomatch hx)
  exact ⟨d.chip.deselect_phase _, d.chip.deselect_cycle _ hw, horderly⟩

/-- Deselecting begins the cycle of a page write. -/
theorem At.slaveOff_writing {a : Addr} (h : At (.writing a) cycle d) :
    At .deselected (some (d.cycles 0)) (spiSlaveOff d).2 := by
  have hselected : d.chip.phase ≠ .deselected := by rw [h.phase]; simp
  have horderly : Orderly (d.sent ++ [⟨d.chip, .slaveOff⟩]) :=
    h.orderly.snoc hselected fun hx => (nomatch hx)
  have hcycle : (d.chip.deselect (d.cycles 0)).cycle = some (d.cycles 0) := by
    rw [Chip.deselect, h.phase]
  exact ⟨d.chip.deselect_phase _, hcycle, horderly⟩

/-! ## The calls that touch the chip -/

theorem allowed_rdsr (c : Chip) : CommandAllowed c Command.rdsr.code :=
  ⟨fun h => absurd h (by decide), fun h => absurd h (by decide), fun _ => rfl⟩

theorem allowed_wren {c : Chip} (h : c.cycle = none) : CommandAllowed c Command.wren.code :=
  ⟨fun _ => h, fun hb => absurd hb (by decide), fun hc => absurd h hc⟩

theorem allowed_read {c : Chip} (h : c.cycle = none) : CommandAllowed c Command.read.code :=
  ⟨fun _ => h, fun hb => absurd hb (by decide), fun hc => absurd h hc⟩

theorem allowed_write {c : Chip} (h : c.cycle = none) (hw : c.writeEnabled = true) :
    CommandAllowed c Command.write.code :=
  ⟨fun _ => h, fun _ => hw, fun hc => absurd h hc⟩

theorem readStatus_chip (arch : Arch) (h : d.chip.phase = .deselected) :
    (spiEepromReadStatus arch d).1 = d.chip.statusByte ∧
      (spiEepromReadStatus arch d).2.chip.cycle = d.chip.polled.cycle := by
  obtain ⟨⟨memory, phase, latch, writeEnabled, cycle⟩, cycles, sent, index, map, rs, errno⟩ := d
  obtain rfl : phase = .deselected := h
  rcases cycle with _ | _ | n <;> exact ⟨rfl, rfl⟩

theorem readStatus_phase (arch : Arch) (d : Device) :
    (spiEepromReadStatus arch d).2.chip.phase = .deselected := Chip.deselect_phase _ _

/-- A status read is allowed at all times. -/
theorem At.readStatus (arch : Arch) (h : At .deselected cycle d) :
    At .deselected d.chip.polled.cycle (spiEepromReadStatus arch d).2 := by
  have hcommand := h.slaveOn.command arch (allowed_rdsr _) (fun hb => absurd hb (by decide)) rfl
  have hoff := (hcommand.status arch (b := 0xff)).slaveOff (by decide) (fun a => by simp)
  exact ⟨hoff.phase, (readStatus_chip arch h.phase).2, hoff.orderly⟩

/-- Write-enable: the latch is set, and the last command was this one. -/
theorem enableWrite_spec (arch : Arch) (h : At .deselected none d) :
    At .deselected none (spiEnableWrite arch d).2 ∧
      (spiEnableWrite arch d).2.chip.writeEnabled = true ∧
      (commands (spiEnableWrite arch d).2.sent).getLast? = some Command.wren.code := by
  have hon := h.slaveOn
  have hafter : (spiSlaveOn d).2.chip.afterCommand Command.wren.code = .writeEnable := by
    rw [Chip.afterCommand, if_neg (by decide), if_neg (by simp [hon.cycle]), if_pos rfl]
  have hcommand := hon.command arch (allowed_wren hon.cycle) (fun hb => absurd hb (by decide)) hafter
  have hlast : commands (spiTransfer arch Command.wren.code (spiSlaveOn d).2).2.sent =
      commands (spiSlaveOn d).2.sent ++ [Command.wren.code] := by
    show commands ((spiSlaveOn d).2.sent ++ [⟨(spiSlaveOn d).2.chip, .byte Command.wren.code⟩]) = _
    rw [commands_append, commands_singleton]
    simp [Sent.command, hon.phase]
  refine ⟨hcommand.slaveOff (by decide) (fun a => by simp), ?_, ?_⟩
  · show ((spiTransfer arch Command.wren.code (spiSlaveOn d).2).2.chip.deselect _).writeEnabled = true
    rw [Chip.deselect, hcommand.phase]
  · show (commands ((spiTransfer arch Command.wren.code (spiSlaveOn d).2).2.sent ++
      [⟨_, .slaveOff⟩])).getLast? = _
    rw [commands_append, hlast, commands_singleton]
    simp [Sent.command]

/-! ## The wait -/

/-- What a status read brings down: it deselects the chip, and then it moves the cycle on. -/
def pollsLeft (d : Device) : Nat × Nat :=
  (if d.chip.phase = .deselected then 0 else 1, (d.chip.cycle.map (· + 1)).getD 0)

theorem pollsLeft_lt (arch : Arch) (d : Device)
    (h : (spiEepromReadStatus arch d).1 &&& writeInProgressMask ≠ 0) :
    Prod.Lex (· < ·) (· < ·) (pollsLeft (spiEepromReadStatus arch d).2) (pollsLeft d) := by
  unfold pollsLeft
  rw [if_pos (readStatus_phase arch d)]
  by_cases hphase : d.chip.phase = .deselected
  · obtain ⟨hanswer, hcycle⟩ := readStatus_chip arch hphase
    rw [hanswer, Ne, statusByte_idle] at h
    rw [if_pos hphase, hcycle]
    refine Prod.Lex.right 0 ?_
    unfold Chip.polled at h ⊢
    split
    · next hnone => simp [hnone] at h
    · next hzero => simp [hzero] at h
    · next n hsome => simp [hsome]
  · rw [if_neg hphase]
    exact Prod.Lex.left _ _ Nat.zero_lt_one

/-- `spi_eeprom_wait_for_last_write_end`. -/
def spiEepromWaitForLastWriteEnd (arch : Arch) : StateM Device Unit := fun d =>
  if (spiEepromReadStatus arch d).1 &&& writeInProgressMask = 0 then ((), (spiEepromReadStatus arch d).2)
  else spiEepromWaitForLastWriteEnd arch (spiEepromReadStatus arch d).2
termination_by d => pollsLeft d
decreasing_by exact pollsLeft_lt arch _ ‹_›

/-! ## What is known between two calls -/

/-- Between two calls: the chip is deselected and the signals so far keep the protocol. -/
def Ready (d : Device) : Prop := ∃ cycle, At .deselected cycle d

/-- Ready, with no write cycle on. -/
def Idle (d : Device) : Prop := At .deselected none d

/-- Inside a page write. -/
def Writing (d : Device) : Prop := ∃ a, At (.writing a) none d

/-- Inside a read. -/
def Reading (d : Device) : Prop := ∃ a, At (.reading a) none d

theorem Idle.ready (h : Idle d) : Ready d := ⟨none, h⟩

/-- The address of a read or a write. -/
theorem At.address {writing : Bool} {high low : Byte} (h : At (.addressHigh writing) none d) :
    ∃ a, At (if writing then .writing a else .reading a) none
      (spiTransfer arch low (spiTransfer arch high d).2).2 := by
  have hhigh := h.byte arch (b := high) (q := .addressLow writing high)
    ⟨by simp, by simp, by simp⟩ (by rw [Chip.transfer, h.phase])
  refine ⟨Fin.ofNat 65536 (256 * high.val + low.val), hhigh.byte arch ⟨by simp, by simp, by simp⟩ ?_⟩
  rw [Chip.transfer, hhigh.phase]

@[spec]
theorem startWrite_spec (addr : Addr) :
    ⦃fun d => ⌜Idle d⌝⦄ spiEepromStartWrite arch addr ⦃⇓ _ d => ⌜Writing d⌝⦄ := by
  intro d h
  obtain ⟨henabled, hlatch, hlast⟩ := enableWrite_spec arch h
  have hon := henabled.slaveOn
  have hon_latch : (spiSlaveOn (spiEnableWrite arch d).2).2.chip.writeEnabled = true := by
    rw [slaveOn_chip henabled.phase]
    exact hlatch
  have hon_last : commands (spiSlaveOn (spiEnableWrite arch d).2).2.sent =
      commands (spiEnableWrite arch d).2.sent := by
    show commands (_ ++ [⟨_, .slaveOn⟩]) = _
    rw [commands_append, commands_singleton]
    exact List.append_nil _
  have hcommand := hon.command arch (q := .addressHigh true)
    (allowed_write hon.cycle hon_latch) (fun _ => hon_last ▸ hlast) (by
      rw [Chip.afterCommand, if_neg (by decide), if_neg (by simp [hon.cycle]), if_neg (by decide),
        if_neg (by decide), if_pos ⟨rfl, hon_latch⟩])
  exact hcommand.address

theorem wait_idle (h : Ready d) : Idle (spiEepromWaitForLastWriteEnd arch d).2 := by
  induction d using spiEepromWaitForLastWriteEnd.induct arch with
  | case1 d hidle =>
    obtain ⟨cycle, h⟩ := h
    have hread := h.readStatus arch
    have hend := hidle
    rw [(readStatus_chip arch h.phase).1, statusByte_idle] at hend
    rw [hend] at hread
    rw [spiEepromWaitForLastWriteEnd, if_pos hidle]
    exact hread
  | case2 d hbusy ih =>
    obtain ⟨cycle, h⟩ := h
    rw [spiEepromWaitForLastWriteEnd, if_neg hbusy]
    exact ih ⟨_, h.readStatus arch⟩

/-- The wait ends, and no write cycle is on behind it. -/
@[spec]
theorem wait_spec : ⦃fun d => ⌜Ready d⌝⦄ spiEepromWaitForLastWriteEnd arch ⦃⇓ _ d => ⌜Idle d⌝⦄ :=
  fun _ h => wait_idle h

theorem transfer_writing (b : Byte) :
    ⦃fun d => ⌜Writing d⌝⦄ spiTransfer arch b ⦃⇓ _ d => ⌜Writing d⌝⦄ := by
  rintro d ⟨a, h⟩
  exact ⟨nextInPage arch.pageSize a, h.byte arch ⟨by simp, by simp, by simp⟩ (by rw [Chip.transfer, h.phase])⟩

theorem transfer_reading (b : Byte) :
    ⦃fun d => ⌜Reading d⌝⦄ spiTransfer arch b ⦃⇓ _ d => ⌜Reading d⌝⦄ := by
  rintro d ⟨a, h⟩
  exact ⟨a + 1, h.byte arch ⟨by simp, by simp, by simp⟩ (by rw [Chip.transfer, h.phase])⟩

@[spec]
theorem continueWrite_spec (buf : List Byte) :
    ⦃fun d => ⌜Writing d⌝⦄ spiEepromContinueWrite arch buf ⦃⇓ _ d => ⌜Writing d⌝⦄ := by
  mvcgen [spiEepromContinueWrite, transfer_writing]
  case inv1 => exact ⇓ _ d => ⌜Writing d⌝
  all_goals simp_all

theorem readBytes_spec (arch : Arch) (len : Nat) :
    ⦃fun d => ⌜Reading d⌝⦄ spiEepromReadBytes arch len ⦃⇓ _ d => ⌜Reading d⌝⦄ := by
  induction len with
  | zero => mvcgen [spiEepromReadBytes]
  | succ len ih => mvcgen [spiEepromReadBytes, transfer_reading, ih]

@[spec]
theorem read_spec (addr : Addr) (len : Nat) :
    ⦃fun d => ⌜Idle d⌝⦄ spiEepromRead arch addr len ⦃⇓ _ d => ⌜Idle d⌝⦄ := by
  intro d h
  have hon := h.slaveOn
  have hcommand := hon.command arch (q := .addressHigh false) (allowed_read hon.cycle)
    (fun hb => absurd hb (by decide)) (by
      rw [Chip.afterCommand, if_neg (by decide), if_neg (by simp [hon.cycle]), if_neg (by decide),
        if_pos rfl])
  obtain ⟨a, hdata⟩ := readBytes_spec arch len _ hcommand.address
  exact hdata.slaveOff (by simp) (by simp)

@[spec]
theorem readByte_spec (addr : Addr) :
    ⦃fun d => ⌜Idle d⌝⦄ spiEepromReadByte arch addr ⦃⇓ _ d => ⌜Idle d⌝⦄ := by
  mvcgen [spiEepromReadByte]

theorem slaveOff_spec : ⦃fun d => ⌜Writing d⌝⦄ spiSlaveOff ⦃⇓ _ d => ⌜Ready d⌝⦄ := by
  rintro d ⟨a, h⟩
  exact ⟨some (d.cycles 0), h.slaveOff_writing⟩

/-- A page write leaves the chip deselected, with its cycle under way. -/
@[spec]
theorem writePage_spec (addr : Addr) (buf : List Byte) :
    ⦃fun d => ⌜Idle d⌝⦄ spiEepromWritePage arch addr buf ⦃⇓ _ d => ⌜Ready d⌝⦄ := by
  mvcgen [spiEepromWritePage, slaveOff_spec]

/-! ## Writes of any length -/

/-- How much goes into one page write at `dst` (`n`): the rest of the data, or of the page; backwards,
    what of the page lies before `dst`. -/
def pagePart (arch : Arch) (back : Bool) (dst : Addr) (count : Nat) : Nat :=
  let dstPageOff := dst.val % arch.pageSize
  let dstPageRemaining := if back then dstPageOff + 1 else arch.pageSize - dstPageOff
  if count < dstPageRemaining then count else dstPageRemaining

theorem pagePart_pos (arch : Arch) (back : Bool) (dst : Addr) {count : Nat} (h : count ≠ 0) :
    0 < pagePart arch back dst count := by
  have hoff : dst.val % arch.pageSize < arch.pageSize := Nat.mod_lt _ (by cases arch <;> decide)
  have hremaining : 0 < if back then dst.val % arch.pageSize + 1 else
      arch.pageSize - dst.val % arch.pageSize := by
    cases back with
    | true => exact Nat.succ_pos _
    | false => exact Nat.sub_pos_of_lt hoff
  show 0 < ite (count < _) _ _
  rcases Nat.lt_or_ge count (if back then dst.val % arch.pageSize + 1 else
      arch.pageSize - dst.val % arch.pageSize) with hlt | hge
  · rw [if_pos hlt]
    exact Nat.pos_of_ne_zero h
  · rw [if_neg (Nat.not_lt.mpr hge)]
    exact hremaining

/-- The loop of `spi_eeprom_write`. -/
def spiEepromWriteLoop (arch : Arch) (dst : Addr) (buf : List Byte) (written : Int16) :
    StateM Device Int16 :=
  if _h : buf.length = 0 then return written
  else do
    let n := pagePart arch false dst buf.length
    spiEepromWaitForLastWriteEnd arch
    let w ← spiEepromWritePage arch dst (buf.take n)
    let written := written + w.toInt16
    if w.toInt ≠ n then return if written = 0 then written else -1
    spiEepromWriteLoop arch (dst + Fin.ofNat 65536 n) (buf.drop n) written
termination_by buf.length
decreasing_by
  have hn := pagePart_pos arch false dst ‹buf.length ≠ 0›
  rw [List.length_drop]
  omega

/-- `spi_eeprom_write`. -/
def spiEepromWrite (arch : Arch) (dst : Addr) (buf : List Byte) : StateM Device Int16 :=
  spiEepromWriteLoop arch dst buf 0

/-- `spi_eeprom_memset`: the buffer is a page of `c`. -/
def spiEepromMemset (arch : Arch) (dst : Addr) (c : Byte) (len : Nat) : StateM Device StorageErr :=
  if _h : len = 0 then return spiEepromOk
  else do
    let buf := List.replicate arch.pageSize c
    let n := pagePart arch false dst len
    spiEepromWaitForLastWriteEnd arch
    let _ ← spiEepromWritePage arch dst (buf.take n)
    spiEepromMemset arch (dst + Fin.ofNat 65536 n) c (len - n)
termination_by len
decreasing_by
  exact Nat.sub_lt (Nat.pos_of_ne_zero ‹_›) (pagePart_pos arch false dst ‹_›)

/-- `spi_eeprom_checked_start_write`. -/
def spiEepromCheckedStartWrite (arch : Arch) (addr : Addr) : StateM Device Unit := do
  spiEepromWaitForLastWriteEnd arch
  let _ ← spiEepromStartWrite arch addr

/-- `spi_eeprom_write_step`. -/
def spiEepromWriteStep (arch : Arch) (addr : Addr) (data : List Byte) (last : Bool) :
    StateM Device StorageErr := do
  if addr.val % arch.pageSize = 0 then
    -- start write at each page start
    spiEepromWaitForLastWriteEnd arch
    let result ← spiEepromStartWrite arch addr
    if spiEepromOk ≠ result then return result
  let len ← spiEepromContinueWrite arch data
  if len.toInt ≠ data.length then return (← get).storageErrno
  if last ∨ (addr.val + data.length) % arch.pageSize = 0 then spiSlaveOff
  return spiEepromOk

/-- `spi_eeprom_write_short`. -/
def spiEepromWriteShort (arch : Arch) (dst : Addr) (s : Fin 65536) : StateM Device StorageErr := do
  if dst.val % arch.pageSize = arch.pageSize - 1 then
    let _ ← spiEepromWrite arch dst (shortBytes s)
  else
    spiEepromWaitForLastWriteEnd arch
    let _ ← spiEepromWritePage arch dst (shortBytes s)
  return spiEepromOk

/-- The loop of `spi_eeprom_memmove`; `back` is the negative direction. -/
def spiEepromMemmoveLoop (arch : Arch) (back : Bool) (dst src : Addr) (count : Nat) :
    StateM Device StorageErr :=
  if _h : count = 0 then return spiEepromOk
  else do
    let n := pagePart arch back dst count
    let step := Fin.ofNat 65536 n
    let (src, dst) := if back then (src - step, dst - step) else (src, dst)
    spiEepromWaitForLastWriteEnd arch
    let buf ← spiEepromRead arch src n
    if buf.length ≠ n then return (← get).storageErrno
    let w ← spiEepromWritePage arch dst buf
    if w.toInt ≠ n then return (← get).storageErrno
    let (src, dst) := if back then (src, dst) else (src + step, dst + step)
    spiEepromMemmoveLoop arch back dst src (count - n)
termination_by count
decreasing_by
  exact Nat.sub_lt (Nat.pos_of_ne_zero ‹_›) (pagePart_pos arch back _ ‹_›)

/-- `spi_eeprom_memmove`. -/
def spiEepromMemmove (arch : Arch) (dst src : Addr) (count : Nat) : StateM Device StorageErr :=
  spiEepromMemmoveLoop arch (src < dst) dst src count

@[spec]
theorem write_spec (dst : Addr) (buf : List Byte) :
    ⦃fun d => ⌜Ready d⌝⦄ spiEepromWrite arch dst buf ⦃⇓ _ d => ⌜Ready d⌝⦄ := by
  unfold spiEepromWrite
  generalize (0 : Int16) = written
  induction dst, buf, written using spiEepromWriteLoop.induct arch with
  | case1 dst buf written h => 
    rw [spiEepromWriteLoop]
    mvcgen
  | case2 dst buf written h n ih =>
    rw [spiEepromWriteLoop]
    mvcgen [ih]
  
@[spec]
theorem writeShort_spec (dst : Addr) (s : Fin 65536) :
    ⦃fun d => ⌜Ready d⌝⦄ spiEepromWriteShort arch dst s ⦃⇓ _ d => ⌜Ready d⌝⦄ := by
  mvcgen [spiEepromWriteShort]

@[spec]
theorem memmove_spec (dst src : Addr) (count : Nat) :
    ⦃fun d => ⌜Ready d⌝⦄ spiEepromMemmove arch dst src count ⦃⇓ _ d => ⌜Ready d⌝⦄ := by
  unfold spiEepromMemmove
  generalize decide (src < dst) = back
  induction dst, src, count using spiEepromMemmoveLoop.induct arch back with
  | case1 =>
    rw [spiEepromMemmoveLoop]
    mvcgen
  | case2 dst src count h n step src' dst' _ ih =>
    rw [spiEepromMemmoveLoop]
    mvcgen
    · next hidle => exact hidle.ready
    · exact ih _ _

end KeyboardFirmware.Spi
