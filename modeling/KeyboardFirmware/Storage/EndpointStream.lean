/-
  `Endpoint_Read_Control_SpiMemStream_LE`: a vendor write from USB to the SPI EEPROM.

  The loop is the template's.  Each turn of it looks at the device and at the endpoint once (`Poll`), and
  a run is over a list of such looks.  The early returns leave the chip as the last byte has left it: it
  is deselected behind the last byte that was declared and behind the end of a page, and nowhere else
  (`stream_usable_iff`).
-/
import KeyboardFirmware.Storage.Writers

namespace KeyboardFirmware.Spi

open Lib

/-- `USB_DeviceState`, as far as the loops ask. -/
inductive DeviceState where
  | unattached
  | suspended
  | other
deriving DecidableEq

/-- What one turn of a loop finds. -/
structure Poll where
  deviceState : DeviceState
  /-- `Endpoint_IsSETUPReceived`: the host has aborted the transfer. -/
  setupReceived : Bool
  /-- `Endpoint_IsOUTReceived`, with the bytes in the endpoint. -/
  outReceived : Option (List Byte)
  /-- `Endpoint_IsINReady`. -/
  inReady : Bool

/-- `ENDPOINT_RWCSTREAM_…`. -/
inductive StreamResult where
  | noError
  | hostAborted
  | deviceDisconnected
  | busSuspended
deriving DecidableEq

/-- The inner loop, over the bytes in the endpoint. -/
def readPacket (arch : Arch) : Addr → Nat → List Byte → StateM Device (Addr × Nat)
  | dataStream, 0, _ => return (dataStream, 0)
  | dataStream, length + 1, [] => return (dataStream, length + 1)
  | dataStream, length + 1, b :: bytes => do
    let _ ← spiEepromWriteStep arch dataStream [b] (length + 1 = 1)
    readPacket arch (dataStream + 1) length bytes

/-- The loop that waits for the host's status request; `none` while it waits. -/
def statusStage : List Poll → Option StreamResult
  | [] => none
  | poll :: polls =>
    if poll.inReady then some .noError
    else match poll.deviceState with
      | .unattached => some .deviceDisconnected
      | .suspended => some .busSuspended
      | .other => statusStage polls

/-- The loop over the packets; `none` while it waits. -/
def dataStage (arch : Arch) : List Poll → Addr → Nat → StateM Device (Option StreamResult)
  | polls, _, 0 => return statusStage polls
  | [], _, _ + 1 => return none
  | poll :: polls, dataStream, length + 1 =>
    match poll.deviceState with
    | .unattached => return some .deviceDisconnected
    | .suspended => return some .busSuspended
    | .other =>
      if poll.setupReceived then return some .hostAborted
      else match poll.outReceived with
        | none => dataStage arch polls dataStream (length + 1)
        | some bytes => do
          let (dataStream, length) ← readPacket arch dataStream (length + 1) bytes
          dataStage arch polls dataStream length

/-- `Endpoint_Read_Control_SpiMemStream_LE`. -/
def endpointReadControlSpiMemStreamLE (arch : Arch) (buffer : Addr) (length : Nat) (polls : List Poll) :
    StateM Device (Option StreamResult) := do
  spiEepromStartWriteIfUnaligned arch buffer
  dataStage arch polls buffer length

/-- The turn ends the transfer early. -/
def Poll.endsStream (poll : Poll) : Bool := poll.deviceState ≠ .other || poll.setupReceived

/-- The bytes that the host sends before the transfer ends, of the `length` declared. -/
def received : List Poll → Nat → List Byte
  | [], _ => []
  | poll :: polls, length =>
    if poll.endsStream then []
    else
      let bytes := (poll.outReceived.getD []).take length
      bytes ++ received polls (length - bytes.length)

/-- The store can be used: what was received is stored and nothing else has changed, the chip is
    deselected, and takes what comes next as a command. -/
structure StoreUsable (buffer : Addr) (bytes : List Byte) (d d' : Device) : Prop where
  deselected : d'.chip.phase = .deselected
  stored : d'.chip.memory = writeRange d.chip.memory buffer bytes
  command : d'.chip.select.phase = .command

variable {arch : Arch} {d d₀ : Device} {m : Addr → Byte} {a buffer : Addr} {left length : Nat}
  {bytes : List Byte} {polls : List Poll}

theorem received_zero : ∀ polls : List Poll, received polls 0 = []
  | [] => rfl
  | poll :: polls => by
    unfold received
    split
    · rfl
    · rw [List.take_zero]
      exact received_zero polls

theorem received_length_le : ∀ (polls : List Poll) (length : Nat), (received polls length).length ≤ length
  | [], _ => Nat.zero_le _
  | poll :: polls, length => by
    unfold received
    split
    · exact Nat.zero_le _
    · have hrest := received_length_le polls (length - ((poll.outReceived.getD []).take length).length)
      have htake := List.length_take_le length (poll.outReceived.getD [])
      simp only [List.length_append]
      omega

/-- Inside a stream of which `left` bytes are still to come, the next one to `a`. -/
def BytesLeft (arch : Arch) (d₀ : Device) (a : Addr) (left : Nat) (m : Addr → Byte) (d : Device) : Prop :=
  if left = 0 then ∃ cycle, During arch True d₀ .deselected cycle m d else Streaming arch d₀ a m d

theorem BytesLeft.step (h : BytesLeft arch d₀ a (left + 1) m d) (b : Byte) :
    BytesLeft arch d₀ (a + 1) left (Function.update m a b)
      (spiEepromWriteStep arch a [b] (left + 1 = 1) d).2 := by
  rw [BytesLeft, if_neg (Nat.succ_ne_zero left)] at h
  have hstep := h.step b (left + 1 = 1)
  unfold BytesLeft
  split
  · next hlast =>
    rw [decide_eq_true (show left + 1 = 1 by omega), if_pos rfl] at hstep
    rw [decide_eq_true (show left + 1 = 1 by omega)]
    exact hstep
  · next hmore =>
    rw [decide_eq_false (show left + 1 ≠ 1 by omega), if_neg Bool.false_ne_true] at hstep
    rw [decide_eq_false (show left + 1 ≠ 1 by omega)]
    exact hstep

/-- What has come in so far is stored, and `left` less as many bytes are still to come. -/
def Came (arch : Arch) (d₀ : Device) (a : Addr) (left : Nat) (m : Addr → Byte) (bytes : List Byte)
    (d : Device) : Prop :=
  BytesLeft arch d₀ (a + Fin.ofNat 65536 bytes.length) (left - bytes.length) (writeRange m a bytes) d

theorem came_nil (h : BytesLeft arch d₀ a left m d) : Came arch d₀ a left m [] d := by
  have hzero : a + Fin.ofNat 65536 ([] : List Byte).length = a := by
    rw [List.length_nil, Fin.ofNat_zero, add_zero]
  rw [Came, hzero, writeRange_nil]
  exact h

/-- What comes in behind. -/
theorem Came.append {more : List Byte} (hlen : (bytes ++ more).length ≤ 65536)
    (h : Came arch d₀ (a + Fin.ofNat 65536 bytes.length) (left - bytes.length) (writeRange m a bytes)
      more d) : Came arch d₀ a left m (bytes ++ more) d := by
  unfold Came at *
  rw [writeRange_append m a hlen, List.length_append, add_ofNat_add, ← Nat.sub_sub]
  exact h

theorem readPacket_spec : ∀ (bytes : List Byte) {left : Nat} {a : Addr} {m : Addr → Byte} {d : Device},
    left ≤ 65535 → BytesLeft arch d₀ a left m d →
    let taken := bytes.take left
    (readPacket arch a left bytes d).1 = (a + Fin.ofNat 65536 taken.length, left - taken.length) ∧
      Came arch d₀ a left m taken (readPacket arch a left bytes d).2
  | bytes, 0, a, m, d, _, h => by
    have hzero : a + Fin.ofNat 65536 0 = a := by rw [Fin.ofNat_zero, add_zero]
    rw [List.take_zero]
    refine ⟨?_, came_nil h⟩
    rw [List.length_nil, hzero]
    rfl
  | [], left + 1, a, m, d, _, h => by
    have hzero : a + Fin.ofNat 65536 0 = a := by rw [Fin.ofNat_zero, add_zero]
    rw [List.take_nil]
    refine ⟨?_, came_nil h⟩
    rw [List.length_nil, hzero]
    rfl
  | b :: bytes, left + 1, a, m, d, hleft, h => by
    obtain ⟨hresult, hrest⟩ := readPacket_spec bytes (by omega) (h.step b)
    have hlen : (bytes.take left).length ≤ left := List.length_take_le _ _
    rw [List.take_succ_cons]
    constructor
    · refine (show _ = _ from hresult).trans ?_
      rw [List.length_cons, Nat.add_comm (bytes.take left).length 1, add_ofNat_add, Nat.add_comm left 1,
        Nat.add_sub_add_left]
      rfl
    · rw [← List.singleton_append]
      apply Came.append
      · rw [List.length_append, List.length_singleton]
        omega
      · have hone : writeRange m a [b] = Function.update m a b := by
          rw [writeRange_cons m a b (by simp), writeRange_nil]
        rw [hone]
        exact hrest

/-- **The run of the loop over the packets** stores the bytes that come in. -/
theorem dataStage_spec : ∀ (polls : List Poll) {left : Nat} {a : Addr} {m : Addr → Byte} {d : Device},
    left ≤ 65535 → BytesLeft arch d₀ a left m d →
    Came arch d₀ a left m (received polls left) (dataStage arch polls a left d).2
  | polls, 0, a, m, d, _, h => by
    have hrun : (dataStage arch polls a 0 d).2 = d := by cases polls <;> rfl
    rw [received_zero, hrun]
    exact came_nil h
  | [], left + 1, a, m, d, _, h => came_nil h
  | ⟨.unattached, _, _, _⟩ :: polls, left + 1, a, m, d, _, h => came_nil h
  | ⟨.suspended, _, _, _⟩ :: polls, left + 1, a, m, d, _, h => came_nil h
  | ⟨.other, true, _, _⟩ :: polls, left + 1, a, m, d, _, h => came_nil h
  | ⟨.other, false, none, _⟩ :: polls, left + 1, a, m, d, hleft, h => by
    exact dataStage_spec polls hleft h
  | ⟨.other, false, some bytes, inReady⟩ :: polls, left + 1, a, m, d, hleft, h => by
    obtain ⟨hresult, hcame⟩ := readPacket_spec bytes hleft h
    have htaken := List.length_take_le (left + 1) bytes
    have hmore := received_length_le polls (left + 1 - (bytes.take (left + 1)).length)
    have hrest := dataStage_spec polls (show left + 1 - (bytes.take (left + 1)).length ≤ 65535 by omega) hcame
    have hrun : (dataStage arch (⟨.other, false, some bytes, inReady⟩ :: polls) a (left + 1) d).2 =
        (dataStage arch polls (a + Fin.ofNat 65536 (bytes.take (left + 1)).length)
          (left + 1 - (bytes.take (left + 1)).length) (readPacket arch a (left + 1) bytes d).2).2 := by
      show (dataStage arch polls (readPacket arch a (left + 1) bytes d).1.1
        (readPacket arch a (left + 1) bytes d).1.2 (readPacket arch a (left + 1) bytes d).2).2 = _
      rw [hresult]
    have hlen : (bytes.take (left + 1) ++
        received polls (left + 1 - (bytes.take (left + 1)).length)).length ≤ 65536 := by
      rw [List.length_append]
      omega
    rw [hrun]
    exact hrest.append hlen

/-! ## Behind the function -/

theorem During.usable {cycle : Option Nat}
    (h : During arch True d .deselected cycle (writeRange d.chip.memory buffer bytes) d₀) :
    StoreUsable buffer bytes d d₀ :=
  ⟨h.phase, h.memory, by rw [Chip.select, h.phase]⟩

/-- Between two bytes the store can be used at the start of a page, and only there. -/
theorem Streaming.usable_iff
    (h : Streaming arch d a (writeRange d.chip.memory buffer bytes) d₀) :
    StoreUsable buffer bytes d d₀ ↔ a.val % arch.pageSize = 0 := by
  unfold Streaming at h
  constructor
  · intro husable
    by_contra hinside
    rw [if_neg hinside] at h
    exact nomatch h.phase.symm.trans husable.deselected
  · intro hstart
    rw [if_pos hstart] at h
    obtain ⟨cycle, hd⟩ := h
    exact hd.usable

/-- The state in which the function leaves the chip, by what is still to come. -/
theorem stream_left (arch : Arch) (buffer : Addr) (polls : List Poll) (hlength : length ≤ 65535)
    (hd : d.chip.phase = .deselected) :
    let bytes := received polls length
    let d' := (endpointReadControlSpiMemStreamLE arch buffer length polls d).2
    if bytes.length = length ∧ length ≠ 0 then
      ∃ cycle, During arch True d .deselected cycle (writeRange d.chip.memory buffer bytes) d'
    else
      Streaming arch d (buffer + Fin.ofNat 65536 bytes.length) (writeRange d.chip.memory buffer bytes) d' := by
  have hstart := (During.start arch True hd).streaming buffer
  intro bytes d'
  rcases Nat.eq_zero_or_pos length with hzero | hpos
  · have hbytes : bytes = [] := by
      show received polls length = []
      rw [hzero, received_zero]
    have hrun : d' = (spiEepromStartWriteIfUnaligned arch buffer d).2 := by
      show (dataStage arch polls buffer length _).2 = _
      rw [hzero]
      cases polls <;> rfl
    rw [if_neg (fun h => h.2 hzero), hbytes, hrun, List.length_nil, Fin.ofNat_zero, add_zero, writeRange_nil]
    exact hstart
  · have hleft : BytesLeft arch d buffer length d.chip.memory
        (spiEepromStartWriteIfUnaligned arch buffer d).2 := by
      rw [BytesLeft, if_neg hpos.ne']
      exact hstart
    have hcame : BytesLeft arch d (buffer + Fin.ofNat 65536 bytes.length) (length - bytes.length)
      (writeRange d.chip.memory buffer bytes) d' := dataStage_spec polls hlength hleft
    have hle : bytes.length ≤ length := received_length_le polls length
    unfold BytesLeft at hcame
    by_cases hall : bytes.length = length
    · rw [if_pos (by omega)] at hcame
      rw [if_pos ⟨hall, hpos.ne'⟩]
      exact hcame
    · rw [if_neg (by omega)] at hcame
      rw [if_neg (fun h => hall h.1)]
      exact hcame

/-- **A transfer leaves the store usable** if and only if all the bytes declared have come in, and there
    are some, or what has come in ends with a page. -/
theorem stream_usable_iff (arch : Arch) (buffer : Addr) (length : Nat) (polls : List Poll) (d : Device)
    (hlength : length ≤ 65535) (hd : d.chip.phase = .deselected) :
    let bytes := received polls length
    StoreUsable buffer bytes d (endpointReadControlSpiMemStreamLE arch buffer length polls d).2 ↔
      bytes.length = length ∧ length ≠ 0 ∨ (buffer.val + bytes.length) % arch.pageSize = 0 := by
  have hleft := stream_left arch buffer polls hlength hd
  intro bytes
  have hmod : (buffer + Fin.ofNat 65536 bytes.length).val % arch.pageSize =
      (buffer.val + bytes.length) % arch.pageSize := by
    have hval : (buffer + Fin.ofNat 65536 bytes.length).val = (buffer.val + bytes.length) % 65536 := by
      show (buffer.val + bytes.length % 65536) % 65536 = _
      exact Nat.add_mod_mod _ _ _
    rw [hval]
    exact Nat.mod_mod_of_dvd _ arch.pageSize_dvd
  dsimp only at hleft
  split at hleft
  · next hall =>
    obtain ⟨cycle, hend⟩ := hleft
    exact iff_of_true hend.usable (.inl hall)
  · next hnot =>
    rw [hleft.usable_iff, hmod]
    exact ⟨.inr, fun h => h.resolve_left hnot⟩

/-- Two bytes over the end of a page, all that were declared. -/
theorem stream_usable_two :
    let polls : List Poll := [⟨.other, false, some [1, 2], false⟩, ⟨.other, false, none, true⟩]
    StoreUsable 31 [1, 2] erased (endpointReadControlSpiMemStreamLE .avr8 31 2 polls erased).2 :=
  (stream_usable_iff .avr8 31 2 [⟨.other, false, some [1, 2], false⟩, ⟨.other, false, none, true⟩]
    erased (by decide) rfl).mpr (.inl ⟨rfl, by decide⟩)

/-- The bus is suspended behind the first of two bytes: the chip stays selected. -/
theorem suspended_stream_stays_selected :
    let polls : List Poll := [⟨.other, false, some [7], false⟩, ⟨.suspended, false, none, false⟩]
    let run := endpointReadControlSpiMemStreamLE .avr8 0 2 polls erased
    run.1 = some .busSuspended ∧ ¬ StoreUsable 0 (received polls 2) erased run.2 := by
  intro polls run
  refine ⟨rfl, ?_⟩
  have hleft := stream_left .avr8 0 polls (show 2 ≤ 65535 by decide) (d := erased) rfl
  intro husable
  rw [if_neg (by decide)] at hleft
  exact absurd (hleft.usable_iff.mp husable) (by decide)

end KeyboardFirmware.Spi
