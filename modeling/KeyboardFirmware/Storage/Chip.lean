/-
  The SPI EEPROM chip, and what the protocol allows on its bus.

  The chip is deselected, waits for the command byte, or is inside a command (`Phase`).  A page
  write is stored, and begins a write cycle, when the chip is deselected.  From then on the chip is
  busy, and only a status read tells when the cycle is over: a cycle is the number of status reads that
  still find it in progress.  A chip that ends its cycle unseen is ready sooner than this one, never
  later.

  `Device` is the chip with the other stores that the firmware's operations work on, and with the
  signals sent so far.  Each signal is kept with the chip as the signal found it, so that what the
  protocol asks (`Orderly`) can be said of it.
-/
import KeyboardFirmware.Config.Layout
import KeyboardFirmware.Macro.Macro

namespace KeyboardFirmware.Spi

/-- A data pointer: 16 bits. -/
abbrev Addr := Fin 65536

/-- `SPI_COMMAND`. -/
inductive Command where
  | wrsr
  | write
  | read
  | wrdi
  | rdsr
  | wren
deriving DecidableEq

/-- The byte of a command. -/
def Command.code : Command → Byte
  | .wrsr => 0b0001
  | .write => 0b0010
  | .read => 0b0011
  | .wrdi => 0b0100
  | .rdsr => 0b0101
  | .wren => 0b0110

/-- What the chip takes the next byte for. -/
inductive Phase where
  | deselected
  /-- Selected: the next byte is the command. -/
  | command
  /-- Inside `READ` or `WRITE`, before the high byte of the address. -/
  | addressHigh (writing : Bool)
  | addressLow (writing : Bool) (high : Byte)
  | reading (addr : Addr)
  | writing (addr : Addr)
  | status
  | writeEnable
  /-- A command the chip does not take. -/
  | ignoring
deriving DecidableEq

/-- The architectures, which differ in the page size. -/
inductive Arch where
  | avr8
  | xmega
deriving DecidableEq

/-- `SPI_MEM_PAGE_SIZE`. -/
def Arch.pageSize : Arch → Nat
  | .avr8 => 32
  | .xmega => 64

/-- The chip. -/
structure Chip where
  memory : Addr → Byte
  phase : Phase
  /-- The bytes of the page write that is on: deselecting the chip stores them. -/
  latch : Addr → Option Byte := fun _ => none
  /-- WriteEnableLatch. -/
  writeEnabled : Bool
  /-- How many status reads still find the write cycle in progress; `none` when no cycle is on. -/
  cycle : Option Nat

/-- The status register: the write cycle in bit 0, the latch in bit 1.  The write protection bits are
    clear (`spi_eeprom_enable_write_everywhere`). -/
def Chip.statusByte (c : Chip) : Byte :=
  (if c.writeEnabled then 2 else 0) +
    match c.cycle with
    | some (_ + 1) => 1
    | _ => 0

/-- What a status read does to the write cycle.  The latch falls when the cycle ends. -/
def Chip.polled (c : Chip) : Chip :=
  match c.cycle with
  | none => c
  | some 0 => { c with cycle := none, writeEnabled := false }
  | some (n + 1) => { c with cycle := some n }

/-- The address counter of a page write wraps at the page boundary. -/
def nextInPage (pageSize : Nat) (a : Addr) : Addr :=
  Fin.ofNat 65536 (a.val - a.val % pageSize + (a.val % pageSize + 1) % pageSize)

/-- The phase a command leads to.  A busy chip takes status reads only, and `WRITE` needs the latch;
    `WRSR` and `WRDI`, which no operation here sends, are left out. -/
def Chip.afterCommand (c : Chip) (b : Byte) : Phase :=
  if b = Command.rdsr.code then .status
  else if c.cycle ≠ none then .ignoring
  else if b = Command.wren.code then .writeEnable
  else if b = Command.read.code then .addressHigh false
  else if b = Command.write.code ∧ c.writeEnabled then .addressHigh true
  else .ignoring

/-- One byte to the chip and the byte it answers with. -/
def Chip.transfer (pageSize : Nat) (c : Chip) (b : Byte) : Byte × Chip :=
  match c.phase with
  | .deselected => (0xff, c)
  | .command => (0xff, { c with phase := c.afterCommand b })
  | .addressHigh writing => (0xff, { c with phase := .addressLow writing b })
  | .addressLow writing high =>
    let addr := Fin.ofNat 65536 (256 * high.val + b.val)
    (0xff, { c with phase := if writing then .writing addr else .reading addr, latch := fun _ => none })
  | .reading addr => (c.memory addr, { c with phase := .reading (addr + 1) })
  | .writing addr =>
    (0xff, { c with
      latch := Function.update c.latch addr (some b)
      phase := .writing (nextInPage pageSize addr) })
  | .status => (c.statusByte, c.polled)
  | .writeEnable => (0xff, c)
  | .ignoring => (0xff, c)

/-- Selecting the chip. -/
def Chip.select (c : Chip) : Chip :=
  match c.phase with
  | .deselected => { c with phase := .command }
  | _ => c

/-- The contents, once the chip is deselected. -/
def Chip.contents (c : Chip) : Addr → Byte :=
  match c.phase with
  | .writing _ => fun a => (c.latch a).getD (c.memory a)
  | _ => c.memory

/-- Deselecting the chip: a page write is stored, and begins its cycle, of the given length. -/
def Chip.deselect (length : Nat) (c : Chip) : Chip :=
  match c.phase with
  | .writing _ => { c with memory := c.contents, phase := .deselected, cycle := some length }
  | .writeEnable => { c with phase := .deselected, writeEnabled := true }
  | _ => { c with phase := .deselected }

/-- What the firmware does on the bus. -/
inductive Signal where
  | slaveOn
  | slaveOff
  | byte (b : Byte)
deriving DecidableEq

/-- A signal sent, and the chip as it was before. -/
structure Sent where
  chip : Chip
  signal : Signal

/-- `_macro_recording_state`, with its pointers; a cleared state is all zeros. -/
structure RecordingState where
  /-- `macro`. -/
  macroData : Addr
  cursor : Addr
  indexEntry : Nat

/-- The chip, the stores elsewhere (`avr_eeprom`, the recording state) and the bus. -/
structure Device where
  chip : Chip
  /-- How long the coming write cycles last. -/
  cycles : Nat → Nat
  sent : List Sent
  /-- `macro_index`. -/
  index : MacroIndex
  /-- `logical_to_hid_map`. -/
  logicalToHidMap : Nat → HidKeycode
  recordingState : RecordingState
  /-- `storage_errno`. -/
  storageErrno : Byte

/-! ## The protocol -/

/-- What a command byte asks of the chip: no read or write while a cycle is on, a write only with the
    latch set, and nothing but status reads while a cycle is on. -/
structure CommandAllowed (c : Chip) (b : Byte) : Prop where
  idle : b = Command.read.code ∨ b = Command.write.code → c.cycle = none
  enabled : b = Command.write.code → c.writeEnabled = true
  status : c.cycle ≠ none → b = Command.rdsr.code

/-- What a signal asks of the chip: commands do not overlap, nothing is sent to a deselected chip, and
    the first byte is an allowed command. -/
def Allowed (c : Chip) : Signal → Prop
  | .slaveOn => c.phase = .deselected
  | .slaveOff => c.phase ≠ .deselected
  | .byte b => c.phase ≠ .deselected ∧ (c.phase = .command → CommandAllowed c b)

/-- The command byte that a signal carries. -/
def Sent.command (x : Sent) : Option Byte :=
  match x.signal with
  | .byte b => if x.chip.phase = .command then some b else none
  | _ => none

/-- The commands of a run, in order. -/
def commands (sent : List Sent) : List Byte := sent.filterMap Sent.command

/-- A run on the bus that keeps the protocol: every signal is allowed where it is sent, and the command
    before each write is write-enable. -/
structure Orderly (sent : List Sent) : Prop where
  allowed : ∀ x ∈ sent, Allowed x.chip x.signal
  enabled : ∀ before after, commands sent = before ++ Command.write.code :: after →
    before.getLast? = some Command.wren.code

theorem orderly_nil : Orderly [] :=
  ⟨fun x hx => (nomatch hx), fun before after h => by simp [commands] at h⟩

@[simp] theorem commands_append (sent more : List Sent) :
    commands (sent ++ more) = commands sent ++ commands more := List.filterMap_append

theorem commands_singleton (x : Sent) : commands [x] = x.command.toList := by
  cases hx : x.command <;> simp [commands, hx]

/-- One signal more: it is allowed, and a write command comes behind a write-enable. -/
theorem Orderly.snoc {sent : List Sent} {x : Sent} (h : Orderly sent) (ha : Allowed x.chip x.signal)
    (hw : x.command = some Command.write.code → (commands sent).getLast? = some Command.wren.code) :
    Orderly (sent ++ [x]) := by
  refine ⟨fun y hy => ?_, fun before after heq => ?_⟩
  · rcases List.mem_append.mp hy with hy | hy
    · exact h.allowed y hy
    · exact List.mem_singleton.mp hy ▸ ha
  · rw [commands_append, commands_singleton] at heq
    cases hx : x.command with
    | none => exact h.enabled before after (by simpa [hx] using heq)
    | some b =>
      rw [hx] at heq
      rcases List.eq_nil_or_concat after with rfl | ⟨after, z, rfl⟩
      -- the write is the new signal
      · obtain ⟨hbefore, hb⟩ := List.append_inj' heq rfl
        obtain rfl : b = Command.write.code := List.singleton_inj.mp hb
        exact hbefore ▸ hw hx
      · rw [List.concat_eq_append, ← List.cons_append, ← List.append_assoc] at heq
        exact h.enabled before after (List.append_inj' heq rfl).1

/-! ## The status byte -/

/-- `SPI_STATUS_WRITE_IN_PROGRESS_MASK`. -/
def writeInProgressMask : Byte := 1

/-- The status byte tells that the write is over exactly when the status read has ended the cycle, or
    there was none. -/
theorem statusByte_idle (c : Chip) :
    c.statusByte &&& writeInProgressMask = 0 ↔ c.polled.cycle = none := by
  obtain ⟨memory, phase, latch, writeEnabled, cycle⟩ := c
  rcases cycle with _ | _ | n <;> cases writeEnabled <;> simp [Chip.statusByte, Chip.polled] <;> decide

@[simp] theorem Chip.deselect_phase (c : Chip) (length : Nat) :
    (c.deselect length).phase = .deselected := by
  obtain ⟨memory, phase, latch, writeEnabled, cycle⟩ := c
  cases phase <;> rfl

theorem Chip.deselect_cycle (c : Chip) (length : Nat) (hw : ∀ a, c.phase ≠ .writing a) :
    (c.deselect length).cycle = c.cycle := by
  obtain ⟨memory, phase, latch, writeEnabled, cycle⟩ := c
  cases phase with
  | writing a => exact absurd rfl (hw a)
  | _ => rfl

/-- Only a status read moves the write cycle on. -/
theorem Chip.transfer_cycle (c : Chip) {pageSize : Nat} {b : Byte} (h : c.phase ≠ .status) :
    (c.transfer pageSize b).2.cycle = c.cycle := by
  obtain ⟨memory, phase, latch, writeEnabled, cycle⟩ := c
  cases phase with
  | status => exact absurd rfl h
  | _ => rfl

@[simp] theorem Chip.polled_phase (c : Chip) : c.polled.phase = c.phase := by
  unfold Chip.polled
  split <;> rfl

end KeyboardFirmware.Spi
