/-
  What the driver does to the contents of the chip.

  A page write wraps inside its page, and the chip stores it when it is deselected (`pageWrite`).  Where
  it does not reach the end of the page, it writes its bytes one behind the other
  (`pageWrite_eq_writeRange`), and whether it does is told by the signals (`Sent.WithinPage`).

  `During` is what is known inside an operation: the phase, the write cycle, the contents as they are
  once the chip is deselected, and what was sent since the operation began.
-/
import KeyboardFirmware.Storage.SpiEeprom
import KeyboardFirmware.Lib.StateRun
import KeyboardFirmware.Lib.WrappingMemory

namespace KeyboardFirmware.Spi

open Lib

/-- What a page write leaves: behind the end of the page, it goes on at the start of the page. -/
def pageWrite (pageSize : Nat) : (Addr → Byte) → Addr → List Byte → Addr → Byte
  | m, _, [] => m
  | m, a, b :: bs => pageWrite pageSize (Function.update m a b) (nextInPage pageSize a) bs

/-- A byte is not sent across the end of a page: at the start of a page, the chip has taken no other. -/
def Sent.WithinPage (pageSize : Nat) (x : Sent) : Prop :=
  ∀ a b, x.chip.phase = .writing a → x.signal = .byte b → a.val % pageSize = 0 →
    x.chip.latch = fun _ => none

theorem Arch.pageSize_pos (arch : Arch) : 0 < arch.pageSize := by cases arch <;> decide

theorem Arch.pageSize_dvd (arch : Arch) : arch.pageSize ∣ 65536 := by cases arch <;> decide

/-- Behind an address that is not the last of its page comes the next one. -/
theorem nextInPage_of_lt {pageSize : Nat} {a : Addr} (h : a.val % pageSize + 1 < pageSize) :
    nextInPage pageSize a = a + 1 := by
  have hle : a.val % pageSize ≤ a.val := Nat.mod_le _ _
  rw [nextInPage, Nat.mod_eq_of_lt h,
    show a.val - a.val % pageSize + (a.val % pageSize + 1) = a.val + 1 by omega]
  rfl

/-- The next address lies one further in the page. -/
theorem succ_mod_pageSize (arch : Arch) {a : Addr} (h : a.val % arch.pageSize + 1 < arch.pageSize) :
    (a + 1).val % arch.pageSize = a.val % arch.pageSize + 1 := by
  have hval : (a + 1).val = (a.val + 1) % 65536 := rfl
  rw [hval, Nat.mod_mod_of_dvd _ arch.pageSize_dvd, Nat.add_mod,
    Nat.mod_eq_of_lt (show 1 < arch.pageSize by omega), Nat.mod_eq_of_lt h]

/-- A page write that does not reach behind the end of its page. -/
theorem pageWrite_eq_writeRange (arch : Arch) : ∀ (bs : List Byte) (m : Addr → Byte) (a : Addr),
    a.val % arch.pageSize + bs.length ≤ arch.pageSize → pageWrite arch.pageSize m a bs = writeRange m a bs
  | [], m, a, _ => rfl
  | [b], m, a, _ => by rw [writeRange_cons m a b (by simp), writeRange_nil]; rfl
  | b :: c :: bs, m, a, h => by
    have hlen : (b :: c :: bs).length = (c :: bs).length + 1 := rfl
    have hnext : a.val % arch.pageSize + 1 < arch.pageSize := by
      simp only [List.length_cons] at h
      omega
    have hsmall : arch.pageSize ≤ 65536 := Nat.le_of_dvd (by decide) arch.pageSize_dvd
    have hrest := pageWrite_eq_writeRange arch (c :: bs) (Function.update m a b) (a + 1) (by
      rw [succ_mod_pageSize arch hnext]
      omega)
    rw [writeRange_cons m a b (by omega), ← hrest, pageWrite, nextInPage_of_lt hnext]

theorem pagePart_eq (arch : Arch) (back : Bool) (dst : Addr) (count : Nat) :
    pagePart arch back dst count = min count
      (if back then dst.val % arch.pageSize + 1 else arch.pageSize - dst.val % arch.pageSize) := by
  unfold pagePart
  dsimp only
  generalize (if back = true then dst.val % arch.pageSize + 1 else
    arch.pageSize - dst.val % arch.pageSize) = remaining
  split <;> omega

theorem pagePart_le (arch : Arch) (back : Bool) (dst : Addr) (count : Nat) :
    pagePart arch back dst count ≤ count ∧ pagePart arch back dst count ≤ arch.pageSize := by
  have hoff : dst.val % arch.pageSize < arch.pageSize := Nat.mod_lt _ arch.pageSize_pos
  rw [pagePart_eq]
  split <;> omega

/-- Forwards, a part does not reach behind the end of the page. -/
theorem pagePart_within (arch : Arch) (dst : Addr) (count : Nat) :
    dst.val % arch.pageSize + pagePart arch false dst count ≤ arch.pageSize := by
  have hoff : dst.val % arch.pageSize < arch.pageSize := Nat.mod_lt _ arch.pageSize_pos
  rw [pagePart_eq, if_neg Bool.false_ne_true]
  omega

/-- The length of a page comes back as it is. -/
theorem toInt_ofNat_page (arch : Arch) {n : Nat} (h : n ≤ arch.pageSize) : (Int8.ofNat n).toInt = n := by
  have hsmall : arch.pageSize ≤ 64 := by cases arch <;> decide
  exact Int8.toInt_ofNat_of_lt (by omega)

/-! ## Inside an operation -/

/-- Inside an operation that began at `d₀`: the phase, the write cycle and the contents, and, if the
    operation is to stay within the pages (`within`), that it has. -/
structure During (arch : Arch) (within : Prop) (d₀ : Device) (p : Phase) (cycle : Option Nat)
    (m : Addr → Byte) (d : Device) : Prop where
  phase : d.chip.phase = p
  cycle : d.chip.cycle = cycle
  contents : d.chip.contents = m
  signals : ∃ new, d.sent = d₀.sent ++ new ∧ (within → ∀ x ∈ new, x.WithinPage arch.pageSize)

theorem Chip.contents_of_ne {c : Chip} (h : ∀ a, c.phase ≠ .writing a) : c.contents = c.memory := by
  unfold Chip.contents
  split
  · next a ha => exact absurd ha (h a)
  · rfl

/-- Deselecting the chip stores what it holds. -/
theorem Chip.deselect_contents (c : Chip) (length : Nat) : (c.deselect length).contents = c.contents := by
  obtain ⟨memory, phase, latch, writeEnabled, cycle⟩ := c
  cases phase <;> rfl

variable {arch : Arch} {within : Prop} {d₀ d : Device} {p q : Phase} {cycle cycle' : Option Nat}
  {m m' : Addr → Byte} {a : Addr} {b : Byte}

theorem During.start (arch : Arch) (within : Prop) (h : d.chip.phase = .deselected) :
    During arch within d .deselected d.chip.cycle d.chip.memory d :=
  ⟨h, rfl, Chip.contents_of_ne (by simp [h]), [], (List.append_nil _).symm, fun _ _ hx => nomatch hx⟩

theorem During.memory (h : During arch within d₀ .deselected cycle m d) : d.chip.memory = m := by
  rw [← h.contents]
  exact (Chip.contents_of_ne (by simp [h.phase])).symm

/-- One signal more. -/
theorem During.snoc (h : During arch within d₀ p cycle m d) {s : Signal} {d' : Device}
    (hsent : d'.sent = d.sent ++ [⟨d.chip, s⟩]) (hphase : d'.chip.phase = q)
    (hcycle : d'.chip.cycle = cycle') (hcontents : d'.chip.contents = m') (hin : within → Sent.WithinPage arch.pageSize ⟨d.chip, s⟩) :
    During arch within d₀ q cycle' m' d' := by
  obtain ⟨new, hnew, hwithin⟩ := h.signals
  refine ⟨hphase, hcycle, hcontents, new ++ [⟨d.chip, s⟩], by rw [hsent, hnew, List.append_assoc], ?_⟩
  intro hw x hx
  rcases List.mem_append.mp hx with hx | hx
  · exact hwithin hw x hx
  · exact List.mem_singleton.mp hx ▸ hin hw

/-- Outside a page write, a signal is within its page. -/
theorem withinPage_of_ne {pageSize : Nat} {x : Sent} (h : ∀ a, x.chip.phase ≠ .writing a) :
    x.WithinPage pageSize := fun a _ ha => absurd ha (h a)

theorem During.slaveOn (h : During arch within d₀ .deselected cycle m d) :
    During arch within d₀ .command cycle m (spiSlaveOn d).2 := by
  have hchip := slaveOn_chip h.phase
  refine h.snoc rfl (by rw [hchip]) (by rw [hchip]; exact h.cycle) ?_
    fun _ => withinPage_of_ne (by simp [h.phase])
  rw [hchip, ← h.memory]
  rfl

/-- A byte that is no datum of a page write. -/
theorem During.byte (arch : Arch) (h : During arch within d₀ p cycle m d) (hp : ∀ a, p ≠ .writing a)
    (hphase : (d.chip.transfer arch.pageSize b).2.phase = q)
    (hcycle : (d.chip.transfer arch.pageSize b).2.cycle = cycle')
    (hcontents : (d.chip.transfer arch.pageSize b).2.contents = d.chip.memory) :
    During arch within d₀ q cycle' m (spiTransfer arch b d).2 := by
  have hm : d.chip.memory = m := by
    rw [← h.contents]
    exact (Chip.contents_of_ne (by rw [h.phase]; exact hp)).symm
  exact h.snoc rfl hphase hcycle (hcontents.trans hm) fun _ => withinPage_of_ne (by rw [h.phase]; exact hp)

theorem During.command (h : During arch within d₀ .command cycle m d) (hq : d.chip.afterCommand b = q)
    (hw : ∀ a, q ≠ .writing a) : During arch within d₀ q cycle m (spiTransfer arch b d).2 := by
  have htransfer : (d.chip.transfer arch.pageSize b).2 = { d.chip with phase := q } := by
    rw [Chip.transfer, h.phase, ← hq]
  exact h.byte arch (by simp) (by rw [htransfer]) (by rw [htransfer]; exact h.cycle)
    (by rw [htransfer]; exact Chip.contents_of_ne hw)

/-- The byte of the status register. -/
theorem During.status (h : During arch within d₀ .status cycle m d) :
    During arch within d₀ .status d.chip.polled.cycle m (spiTransfer arch b d).2 := by
  have htransfer : (d.chip.transfer arch.pageSize b).2 = d.chip.polled := by rw [Chip.transfer, h.phase]
  have hphase : d.chip.polled.phase = .status := by rw [Chip.polled_phase, h.phase]
  have hmemory : d.chip.polled.memory = d.chip.memory := by
    unfold Chip.polled
    split <;> rfl
  refine h.byte arch (by simp) (by rw [htransfer, hphase]) (by rw [htransfer]) ?_
  rw [htransfer, ← hmemory]
  exact Chip.contents_of_ne (by rw [hphase]; simp)

/-- The two bytes of an address. -/
theorem During.address {writing : Bool} (addr : Addr)
    (h : During arch within d₀ (.addressHigh writing) cycle m d) :
    let d' := (spiTransfer arch (addrLow addr) (spiTransfer arch (addrHigh addr) d).2).2
    During arch within d₀ (if writing then .writing addr else .reading addr) cycle m d' ∧
      d'.chip.latch = fun _ => none := by
  have hhigh : During arch within d₀ (.addressLow writing (addrHigh addr)) cycle m
      (spiTransfer arch (addrHigh addr) d).2 := by
    have htransfer : (d.chip.transfer arch.pageSize (addrHigh addr)).2 =
        { d.chip with phase := .addressLow writing (addrHigh addr) } := by rw [Chip.transfer, h.phase]
    exact h.byte arch (by simp) (by rw [htransfer]) (by rw [htransfer]; exact h.cycle)
      (by rw [htransfer]; rfl)
  have haddr : Fin.ofNat 65536 (256 * (addrHigh addr).val + (addrLow addr).val) = addr := by
    apply Fin.ext
    have hlt := addr.isLt
    show (256 * (addr.val / 256 % 256) + addr.val % 256) % 65536 = addr.val
    omega
  have htransfer : ((spiTransfer arch (addrHigh addr) d).2.chip.transfer arch.pageSize (addrLow addr)).2 =
      { (spiTransfer arch (addrHigh addr) d).2.chip with
        phase := if writing then .writing addr else .reading addr, latch := fun _ => none } := by
    rw [Chip.transfer, hhigh.phase]
    dsimp only
    rw [haddr]
  intro d'
  constructor
  · refine hhigh.byte arch (by simp) (by rw [htransfer]) (by rw [htransfer]; exact hhigh.cycle) ?_
    rw [htransfer]
    cases writing <;> rfl
  · exact congrArg Chip.latch htransfer

theorem During.read (h : During arch within d₀ (.reading a) cycle m d) :
    (spiTransfer arch b d).1 = m a ∧
      During arch within d₀ (.reading (a + 1)) cycle m (spiTransfer arch b d).2 := by
  have hm : d.chip.memory = m := by
    rw [← h.contents]
    exact (Chip.contents_of_ne (by simp [h.phase])).symm
  have htransfer : d.chip.transfer arch.pageSize b =
      (d.chip.memory a, { d.chip with phase := .reading (a + 1) }) := by rw [Chip.transfer, h.phase]
  constructor
  · show (d.chip.transfer arch.pageSize b).1 = m a
    rw [htransfer, hm]
  · exact h.byte arch (by simp) (by rw [htransfer]) (by rw [htransfer]; exact h.cycle)
      (by rw [htransfer]; rfl)

/-- A byte of a page write. -/
theorem During.write (h : During arch within d₀ (.writing a) cycle m d)
    (hin : within → a.val % arch.pageSize = 0 → d.chip.latch = fun _ => none) :
    During arch within d₀ (.writing (nextInPage arch.pageSize a)) cycle (Function.update m a b)
      (spiTransfer arch b d).2 := by
  have htransfer : (d.chip.transfer arch.pageSize b).2 = { d.chip with
      latch := Function.update d.chip.latch a (some b), phase := .writing (nextInPage arch.pageSize a) } := by
    rw [Chip.transfer, h.phase]
  have hcontents : (d.chip.transfer arch.pageSize b).2.contents = Function.update m a b := by
    have hm : m = fun x => (d.chip.latch x).getD (d.chip.memory x) := by
      rw [← h.contents, Chip.contents, h.phase]
    rw [htransfer, hm]
    funext x
    show (Function.update d.chip.latch a (some b) x).getD (d.chip.memory x) = _
    rw [Function.update_apply, Function.update_apply]
    split <;> rfl
  refine h.snoc rfl (congrArg Chip.phase htransfer) ?_ hcontents ?_
  · exact (congrArg Chip.cycle htransfer).trans h.cycle
  · intro hw a' b' ha' hb' hstart
    obtain rfl : a = a' := Phase.writing.inj (h.phase.symm.trans ha')
    exact hin hw hstart

theorem During.slaveOff (h : During arch within d₀ p cycle m d) :
    ∃ cycle', During arch within d₀ .deselected cycle' m (spiSlaveOff d).2 ∧
      ((∀ a, p ≠ .writing a) → cycle' = cycle) := by
  refine ⟨_, h.snoc rfl (Chip.deselect_phase _ _) rfl ?_ ?_, ?_⟩
  · exact (Chip.deselect_contents _ _).trans h.contents
  · exact fun _ a b _ hb => nomatch hb
  · intro hp
    exact (Chip.deselect_cycle _ _ (by rw [h.phase]; exact hp)).trans h.cycle

/-! ## The functions of the driver -/

theorem During.readStatus (h : During arch within d₀ .deselected cycle m d) :
    During arch within d₀ .deselected d.chip.polled.cycle m (spiEepromReadStatus arch d).2 := by
  have hcommand := h.slaveOn.command (b := Command.rdsr.code) (q := .status) rfl (by simp)
  obtain ⟨cycle', hoff, -⟩ := (hcommand.status (b := 0xff)).slaveOff
  have hcycle : cycle' = d.chip.polled.cycle := hoff.cycle.symm.trans (readStatus_chip arch h.phase).2
  exact hcycle ▸ hoff

/-- The wait leaves the contents. -/
theorem During.wait (h : During arch within d₀ .deselected cycle m d) :
    During arch within d₀ .deselected none m (spiEepromWaitForLastWriteEnd arch d).2 := by
  induction d using spiEepromWaitForLastWriteEnd.induct arch generalizing cycle with
  | case1 d hidle =>
    have hread := h.readStatus
    have hend := hidle
    rw [(readStatus_chip arch h.phase).1, statusByte_idle] at hend
    rw [hend] at hread
    rw [spiEepromWaitForLastWriteEnd, if_pos hidle]
    exact hread
  | case2 d hbusy ih =>
    rw [spiEepromWaitForLastWriteEnd, if_neg hbusy]
    exact ih h.readStatus

theorem During.enableWrite (h : During arch within d₀ .deselected none m d) :
    During arch within d₀ .deselected none m (spiEnableWrite arch d).2 ∧
      (spiEnableWrite arch d).2.chip.writeEnabled = true := by
  have hon := h.slaveOn
  have hafter : (spiSlaveOn d).2.chip.afterCommand Command.wren.code = .writeEnable := by
    rw [Chip.afterCommand, if_neg (by decide), if_neg (by simp [hon.cycle]), if_pos rfl]
  have hcommand := hon.command hafter (by simp)
  obtain ⟨cycle', hoff, hcycle⟩ := hcommand.slaveOff
  rw [hcycle (by simp)] at hoff
  constructor
  · exact hoff
  · show ((spiTransfer arch Command.wren.code (spiSlaveOn d).2).2.chip.deselect _).writeEnabled = true
    rw [Chip.deselect, hcommand.phase]

/-- A page write begins at its address, and the chip has taken no byte of it. -/
theorem During.startWrite (addr : Addr) (h : During arch within d₀ .deselected none m d) :
    During arch within d₀ (.writing addr) none m (spiEepromStartWrite arch addr d).2 ∧
      (spiEepromStartWrite arch addr d).2.chip.latch = fun _ => none := by
  obtain ⟨henabled, hlatch⟩ := h.enableWrite
  have hon := henabled.slaveOn
  have hon_latch : (spiSlaveOn (spiEnableWrite arch d).2).2.chip.writeEnabled = true := by
    rw [slaveOn_chip henabled.phase]
    exact hlatch
  have hafter : (spiSlaveOn (spiEnableWrite arch d).2).2.chip.afterCommand Command.write.code =
      .addressHigh true := by
    rw [Chip.afterCommand, if_neg (by decide), if_neg (by simp [hon.cycle]), if_neg (by decide),
      if_neg (by decide), if_pos ⟨rfl, hon_latch⟩]
  exact (hon.command hafter (by simp)).address addr

theorem continueWrite_cons (arch : Arch) (b : Byte) (buf : List Byte) (d : Device) :
    (spiEepromContinueWrite arch (b :: buf) d).2 =
      (spiEepromContinueWrite arch buf (spiTransfer arch b d).2).2 := by
  simp only [spiEepromContinueWrite, List.forIn_cons, bind_assoc, pure_bind]
  rfl

theorem continueWrite_length (arch : Arch) (buf : List Byte) (d : Device) :
    (spiEepromContinueWrite arch buf d).1 = Int8.ofNat buf.length := rfl

/-- The bytes of a page write, which stay in the page if the operation is to. -/
theorem During.continueWrite : ∀ (buf : List Byte) {m : Addr → Byte} {a : Addr} {d : Device},
    During arch within d₀ (.writing a) none m d →
    (within → buf ≠ [] → (a.val % arch.pageSize = 0 → d.chip.latch = fun _ => none) ∧
      a.val % arch.pageSize + buf.length ≤ arch.pageSize) →
    ∃ a', During arch within d₀ (.writing a') none (pageWrite arch.pageSize m a buf)
      (spiEepromContinueWrite arch buf d).2
  | [], m, a, d, h, _ => ⟨a, h⟩
  | b :: buf, m, a, d, h, hin => by
    have hbyte := h.write (b := b) fun hw => (hin hw (List.cons_ne_nil _ _)).1
    rw [continueWrite_cons, pageWrite]
    refine hbyte.continueWrite buf ?_
    intro hw hrest
    have hlen := (hin hw (List.cons_ne_nil _ _)).2
    rw [List.length_cons] at hlen
    have hpos := List.length_pos_of_ne_nil hrest
    have hlt : a.val % arch.pageSize + 1 < arch.pageSize := by omega
    rw [nextInPage_of_lt hlt, succ_mod_pageSize arch hlt]
    exact ⟨fun hz => absurd hz (Nat.succ_ne_zero _), by omega⟩

theorem During.readBytes : ∀ (n : Nat) {a : Addr} {d : Device},
    During arch within d₀ (.reading a) cycle m d →
    (spiEepromReadBytes arch n d).1 = readRange m a n ∧
      ∃ a', During arch within d₀ (.reading a') cycle m (spiEepromReadBytes arch n d).2
  | 0, a, d, h => ⟨rfl, a, h⟩
  | n + 1, a, d, h => by
    obtain ⟨hbyte, hnext⟩ := h.read (b := 0xff)
    obtain ⟨hrest, hend⟩ := hnext.readBytes n
    constructor
    · rw [readRange_succ, ← hbyte, ← hrest]
      rfl
    · exact hend

/-- `spi_eeprom_read` gives the bytes at the address and behind. -/
theorem During.eepromRead (addr : Addr) (n : Nat) (h : During arch within d₀ .deselected none m d) :
    (spiEepromRead arch addr n d).1 = Lib.readRange m addr n ∧
      During arch within d₀ .deselected none m (spiEepromRead arch addr n d).2 := by
  have hon := h.slaveOn
  have hafter : (spiSlaveOn d).2.chip.afterCommand Command.read.code = .addressHigh false := by
    rw [Chip.afterCommand, if_neg (by decide), if_neg (by simp [hon.cycle]), if_neg (by decide),
      if_pos rfl]
  obtain ⟨hdata, -⟩ := (hon.command hafter (by simp)).address addr
  obtain ⟨hbytes, a', hend⟩ := hdata.readBytes n
  obtain ⟨cycle', hoff, hcycle⟩ := hend.slaveOff
  rw [hcycle (by simp)] at hoff
  exact ⟨hbytes, hoff⟩

/-- `spi_eeprom_write_page` stores the buffer as the chip takes a page write. -/
theorem During.writePage (addr : Addr) (buf : List Byte) (h : During arch within d₀ .deselected none m d)
    (hin : within → addr.val % arch.pageSize + buf.length ≤ arch.pageSize) :
    (spiEepromWritePage arch addr buf d).1 = Int8.ofNat buf.length ∧
      ∃ cycle', During arch within d₀ .deselected cycle' (pageWrite arch.pageSize m addr buf)
        (spiEepromWritePage arch addr buf d).2 := by
  obtain ⟨hstart, hlatch⟩ := h.startWrite addr
  obtain ⟨a', hbytes⟩ := hstart.continueWrite buf fun hw _ => ⟨fun _ => hlatch, hin hw⟩
  obtain ⟨cycle', hoff, -⟩ := hbytes.slaveOff
  exact ⟨rfl, cycle', hoff⟩

end KeyboardFirmware.Spi
