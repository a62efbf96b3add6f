/-
  The writers of the driver: they write exactly their range.

  `spi_eeprom_write` and `spi_eeprom_memset` close a page write at each end of a page, and so does the
  stream of single bytes, which begins inside a page with a checked start (`spiMemStream`).  Between two
  bytes of it the chip is deselected at the start of a page, and inside a page write elsewhere
  (`Streaming`).
-/
import KeyboardFirmware.Storage.Memmove

namespace KeyboardFirmware.Spi

open Lib

/-- The bytes of a stream, one `spi_eeprom_write_step` each, and the last of them flagged. -/
def spiMemStreamBytes (arch : Arch) : Addr → List Byte → StateM Device Unit
  | _, [] => return
  | addr, b :: rest => do
    let _ ← spiEepromWriteStep arch addr [b] rest.isEmpty
    spiMemStreamBytes arch (addr + 1) rest

/-- `spi_eeprom_start_write_if_unaligned`. -/
def spiEepromStartWriteIfUnaligned (arch : Arch) (addr : Addr) : StateM Device Unit := do
  if addr.val % arch.pageSize ≠ 0 then spiEepromCheckedStartWrite arch addr

/-- The streaming protocol. -/
def spiMemStream (arch : Arch) (addr : Addr) (data : List Byte) : StateM Device Unit := do
  spiEepromStartWriteIfUnaligned arch addr
  spiMemStreamBytes arch addr data

/-- Exactly the range has been written, no page write ran across the end of its page, and the chip is
    deselected. -/
structure WritesExactly (arch : Arch) (dst : Addr) (data : List Byte) (d d' : Device) : Prop where
  contents : d'.chip.memory = writeRange d.chip.memory dst data
  withinPages : ∃ new, d'.sent = d.sent ++ new ∧ ∀ x ∈ new, x.WithinPage arch.pageSize
  deselected : d'.chip.phase = .deselected

variable {arch : Arch} {d d₀ : Device} {cycle : Option Nat} {m : Addr → Byte} {dst a : Addr} {b : Byte}
  {data : List Byte}

theorem During.writesExactly
    (h : During arch True d .deselected cycle (writeRange d.chip.memory dst data) d₀) :
    WritesExactly arch dst data d d₀ := by
  obtain ⟨new, hnew, hwithin⟩ := h.signals
  exact ⟨h.memory, ⟨new, hnew, hwithin trivial⟩, h.phase⟩

/-! ## Page by page -/

/-- A part that stays in its page. -/
theorem During.part (h : During arch True d₀ .deselected cycle m d) (dst : Addr) (buf : List Byte)
    (hpage : dst.val % arch.pageSize + buf.length ≤ arch.pageSize) :
    let d' := (spiEepromWaitForLastWriteEnd arch d).2
    (spiEepromWritePage arch dst buf d').1.toInt = buf.length ∧
      ∃ cycle', During arch True d₀ .deselected cycle' (writeRange m dst buf)
        (spiEepromWritePage arch dst buf d').2 := by
  obtain ⟨hw, cycle', hwrite⟩ := h.wait.writePage dst buf fun _ => hpage
  rw [pageWrite_eq_writeRange arch buf m dst hpage] at hwrite
  intro d'
  constructor
  · rw [hw]
    exact toInt_ofNat_page arch (by omega)
  · exact ⟨cycle', hwrite⟩

theorem During.writeLoop (dst : Addr) (buf : List Byte) (written : Int16) (hlen : buf.length ≤ 65536)
    (h : During arch True d₀ .deselected cycle m d) :
    ∃ cycle', During arch True d₀ .deselected cycle' (writeRange m dst buf)
      (spiEepromWriteLoop arch dst buf written d).2 := by
  induction hcount : buf.length using Nat.strong_induction_on generalizing dst buf written m d cycle with
  | _ count ih =>
  rw [spiEepromWriteLoop]
  split
  · next hzero =>
    rw [List.length_eq_zero_iff.mp hzero]
    exact ⟨cycle, h⟩
  · next hne =>
    have hpos := pagePart_pos arch false dst hne
    have hpart := (pagePart_le arch false dst buf.length).1
    have hwithin := pagePart_within arch dst buf.length
    generalize pagePart arch false dst buf.length = n at *
    have htake : (buf.take n).length = n := List.length_take_of_le hpart
    have hdrop : (buf.drop n).length = buf.length - n := List.length_drop
    obtain ⟨hw, cycle', hpage⟩ := h.part dst (buf.take n) (by rwa [htake])
    rw [htake] at hw
    obtain ⟨cycle'', hrest⟩ := ih (buf.length - n) (by omega) (dst + Fin.ofNat 65536 n) (buf.drop n)
      (written + (spiEepromWritePage arch dst (buf.take n) (spiEepromWaitForLastWriteEnd arch d).2).1.toInt16)
      (by omega) hpage hdrop
    refine ⟨cycle'', ?_⟩
    have hboth : (buf.take n ++ buf.drop n).length ≤ 65536 := by
      rw [List.take_append_drop]
      exact hlen
    have happend := writeRange_append m dst hboth
    rw [List.take_append_drop, htake] at happend
    dsimp only
    rw [happend, stateM_bind, stateM_bind, if_neg (not_not_intro hw)]
    exact hrest

theorem During.memset (dst : Addr) (c : Byte) (len : Nat) (hlen : len ≤ 65536)
    (h : During arch True d₀ .deselected cycle m d) :
    ∃ cycle', During arch True d₀ .deselected cycle' (writeRange m dst (List.replicate len c))
      (spiEepromMemset arch dst c len d).2 := by
  induction len using Nat.strong_induction_on generalizing dst m d cycle with
  | _ len ih =>
  rw [spiEepromMemset]
  split
  · next hzero =>
    rw [hzero]
    exact ⟨cycle, h⟩
  · next hne =>
    have hpos := pagePart_pos arch false dst hne
    obtain ⟨hpart, hsmall⟩ := pagePart_le arch false dst len
    have hwithin := pagePart_within arch dst len
    generalize pagePart arch false dst len = n at *
    have hbuf : (List.replicate arch.pageSize c).take n = List.replicate n c := by
      rw [List.take_replicate, Nat.min_eq_left hsmall]
    obtain ⟨-, cycle', hpage⟩ := h.part dst (List.replicate n c) (by rwa [List.length_replicate])
    obtain ⟨cycle'', hrest⟩ := ih (len - n) (by omega) (dst + Fin.ofNat 65536 n) (by omega) hpage
    refine ⟨cycle'', ?_⟩
    have hboth : (List.replicate n c ++ List.replicate (len - n) c).length ≤ 65536 := by
      rw [List.length_append, List.length_replicate, List.length_replicate]
      omega
    have happend := writeRange_append m dst hboth
    rw [List.replicate_append_replicate, List.length_replicate, show n + (len - n) = len by omega] at happend
    dsimp only
    rw [happend, hbuf]
    exact hrest

/-! ## Byte by byte -/

/-- Between two bytes of a stream, the next of which goes to `a`. -/
def Streaming (arch : Arch) (d₀ : Device) (a : Addr) (m : Addr → Byte) (d : Device) : Prop :=
  if a.val % arch.pageSize = 0 then ∃ cycle, During arch True d₀ .deselected cycle m d
  else During arch True d₀ (.writing a) none m d

/-- The start of a stream. -/
theorem During.streaming (a : Addr) (h : During arch True d₀ .deselected cycle m d) :
    Streaming arch d₀ a m (spiEepromStartWriteIfUnaligned arch a d).2 := by
  unfold Streaming spiEepromStartWriteIfUnaligned
  by_cases haligned : a.val % arch.pageSize = 0
  · rw [if_pos haligned, if_neg (not_not_intro haligned)]
    exact ⟨cycle, h⟩
  · rw [if_neg haligned, if_pos haligned]
    exact (h.wait.startWrite a).1

/-- The part of `spi_eeprom_write_step` behind the start of a page: the byte, and the end of the page
    write. -/
theorem During.stepByte (last : Bool) (h : During arch True d₀ (.writing a) none m d)
    (hlatch : a.val % arch.pageSize = 0 → d.chip.latch = fun _ => none) :
    let d' := (spiTransfer arch b d).2
    if last ∨ (a.val + 1) % arch.pageSize = 0 then
      ∃ cycle, During arch True d₀ .deselected cycle (Function.update m a b) (spiSlaveOff d').2
    else During arch True d₀ (.writing (a + 1)) none (Function.update m a b) d' := by
  have hbyte := h.write (b := b) fun _ => hlatch
  intro d'
  split
  · obtain ⟨cycle', hoff, -⟩ := hbyte.slaveOff
    exact ⟨cycle', hoff⟩
  · next hopen =>
    have hmod := Nat.mod_lt a.val arch.pageSize_pos
    have hlt : a.val % arch.pageSize + 1 < arch.pageSize := by
      by_contra hge
      refine hopen (.inr ?_)
      rw [Nat.add_mod, show a.val % arch.pageSize = arch.pageSize - 1 by omega]
      cases arch <;> rfl
    rw [nextInPage_of_lt hlt] at hbyte
    exact hbyte

/-- The page write that the byte for `a` goes to is open. -/
theorem Streaming.opened (h : Streaming arch d₀ a m d) :
    let d' := if a.val % arch.pageSize = 0 then
      (spiEepromStartWrite arch a (spiEepromWaitForLastWriteEnd arch d).2).2 else d
    During arch True d₀ (.writing a) none m d' ∧
      (a.val % arch.pageSize = 0 → d'.chip.latch = fun _ => none) := by
  unfold Streaming at h
  intro d'
  by_cases haligned : a.val % arch.pageSize = 0
  · have hd : d' = (spiEepromStartWrite arch a (spiEepromWaitForLastWriteEnd arch d).2).2 := if_pos haligned
    rw [if_pos haligned] at h
    obtain ⟨cycle, h⟩ := h
    obtain ⟨hstart, hlatch⟩ := h.wait.startWrite a
    rw [hd]
    exact ⟨hstart, fun _ => hlatch⟩
  · have hd : d' = d := if_neg haligned
    rw [if_neg haligned] at h
    rw [hd]
    exact ⟨h, fun hz => absurd hz haligned⟩

theorem writeStep_run (arch : Arch) (a : Addr) (b : Byte) (last : Bool) (d : Device) :
    let d' := if a.val % arch.pageSize = 0 then
      (spiEepromStartWrite arch a (spiEepromWaitForLastWriteEnd arch d).2).2 else d
    (spiEepromWriteStep arch a [b] last d).2 = if last ∨ (a.val + 1) % arch.pageSize = 0 then
      (spiSlaveOff (spiTransfer arch b d').2).2 else (spiTransfer arch b d').2 := by
  have hrest : ∀ d₁ : Device, ((do
      let len ← spiEepromContinueWrite arch [b]
      if len.toInt ≠ [b].length then return (← get).storageErrno
      if last ∨ (a.val + [b].length) % arch.pageSize = 0 then spiSlaveOff
      return spiEepromOk : StateM Device StorageErr) d₁).2 =
      if last ∨ (a.val + 1) % arch.pageSize = 0 then (spiSlaveOff (spiTransfer arch b d₁).2).2
      else (spiTransfer arch b d₁).2 := by
    intro d₁
    have hlen : (spiEepromContinueWrite arch [b] d₁).1.toInt = [b].length := by
      show (Int8.ofNat 1).toInt = 1
      decide
    rw [stateM_bind, if_neg (not_not_intro hlen)]
    dsimp only [List.length_singleton]
    split <;> rfl
  intro d'
  unfold spiEepromWriteStep
  by_cases haligned : a.val % arch.pageSize = 0
  · have hd : d' = (spiEepromStartWrite arch a (spiEepromWaitForLastWriteEnd arch d).2).2 := if_pos haligned
    have hok : (spiEepromStartWrite arch a (spiEepromWaitForLastWriteEnd arch d).2).1 = spiEepromOk := rfl
    rw [if_pos haligned, hd, stateM_bind, stateM_bind, hok, if_neg (not_not_intro rfl)]
    exact hrest _
  · have hd : d' = d := if_neg haligned
    rw [if_neg haligned, hd]
    exact hrest _

/-- **One byte of a stream**. -/
theorem Streaming.step (h : Streaming arch d₀ a m d) (b : Byte) (last : Bool) :
    let d' := (spiEepromWriteStep arch a [b] last d).2
    if last then ∃ cycle, During arch True d₀ .deselected cycle (Function.update m a b) d'
    else Streaming arch d₀ (a + 1) (Function.update m a b) d' := by
  obtain ⟨hopen, hlatch⟩ := h.opened
  have hbyte := hopen.stepByte (b := b) last hlatch
  have hnext : (a + 1).val % arch.pageSize = (a.val + 1) % arch.pageSize :=
    Nat.mod_mod_of_dvd (a.val + 1) arch.pageSize_dvd
  intro d'
  have hd : d' = _ := writeStep_run arch a b last d
  cases last with
  | true =>
    rw [if_pos (.inl rfl)] at hd hbyte
    rw [if_pos rfl, hd]
    exact hbyte
  | false =>
    rw [if_neg Bool.false_ne_true, Streaming, hnext]
    simp only [Bool.false_eq_true, false_or] at hd hbyte
    rw [hd]
    split
    · next hend =>
      rw [if_pos hend] at hbyte
      exact hbyte
    · next hend =>
      rw [if_neg hend] at hbyte
      exact hbyte

/-- The bytes of a stream are written, and the chip is deselected behind the last. -/
theorem Streaming.bytes : ∀ (data : List Byte) {a : Addr} {m : Addr → Byte} {d : Device}, data ≠ [] →
    data.length ≤ 65536 → Streaming arch d₀ a m d →
    ∃ cycle, During arch True d₀ .deselected cycle (writeRange m a data) (spiMemStreamBytes arch a data d).2
  | [], _, _, _, hne, _, _ => absurd rfl hne
  | [b], a, m, d, _, hlen, h => by
    rw [writeRange_cons m a b hlen, writeRange_nil]
    exact h.step b true
  | b :: c :: data, a, m, d, _, hlen, h => by
    rw [writeRange_cons m a b hlen]
    rw [List.length_cons] at hlen
    exact (h.step b false).bytes (c :: data) (List.cons_ne_nil _ _) (by omega)

/-! ## Every writer -/

/-- **The writers write exactly their range**, for every destination and length within the chip. -/
theorem writers_exact (arch : Arch) (dst : Addr) (d : Device) (hd : d.chip.phase = .deselected) :
    (∀ data : List Byte, data ≠ [] → dst.val + data.length ≤ 65536 →
      WritesExactly arch dst data d (spiEepromWrite arch dst data d).2) ∧
    (∀ (c : Byte) (len : Nat), len ≠ 0 → dst.val + len ≤ 65536 →
      WritesExactly arch dst (List.replicate len c) d (spiEepromMemset arch dst c len d).2) ∧
    (∀ s : Fin 65536, dst.val + 2 ≤ 65536 →
      WritesExactly arch dst (shortBytes s) d (spiEepromWriteShort arch dst s d).2) ∧
    ∀ data : List Byte, data ≠ [] → dst.val + data.length ≤ 65536 →
      WritesExactly arch dst data d (spiMemStream arch dst data d).2 := by
  have hstart := During.start arch True hd
  refine ⟨?_, ?_, ?_, ?_⟩
  · intro data _ hend
    obtain ⟨cycle, hwrite⟩ := hstart.writeLoop dst data 0 (by omega)
    exact hwrite.writesExactly
  · intro c len _ hend
    obtain ⟨cycle, hset⟩ := hstart.memset dst c len (by omega)
    exact hset.writesExactly
  · intro s _
    have hlen : (shortBytes s).length = 2 := rfl
    rw [spiEepromWriteShort]
    split
    · obtain ⟨cycle, hwrite⟩ := hstart.writeLoop dst (shortBytes s) 0 (by rw [hlen]; decide)
      exact hwrite.writesExactly
    -- the last byte lies in the page, too
    · next hinside =>
      have hmod := Nat.mod_lt dst.val arch.pageSize_pos
      obtain ⟨-, cycle, hpage⟩ := hstart.part dst (shortBytes s) (by rw [hlen]; omega)
      exact hpage.writesExactly
  · intro data hne hend
    obtain ⟨cycle, hstream⟩ := (hstart.streaming dst).bytes data hne (by omega)
    exact hstream.writesExactly

/-- Three bytes over the end of a page, at once and in a stream. -/
theorem writers_exact_over_page :
    WritesExactly .avr8 31 [1, 2, 3] erased (spiEepromWrite .avr8 31 [1, 2, 3] erased).2 ∧
      WritesExactly .avr8 31 [1, 2, 3] erased (spiMemStream .avr8 31 [1, 2, 3] erased).2 := by
  obtain ⟨hwrite, -, -, hstream⟩ := writers_exact .avr8 31 erased rfl
  exact ⟨hwrite [1, 2, 3] (by decide) (by decide), hstream [1, 2, 3] (by decide) (by decide)⟩

end KeyboardFirmware.Spi
