/-
  `avr_eeprom.c`: the EEPROM of the microcontroller, which is read and written byte by byte.
-/
import KeyboardFirmware.Config.Layout
import KeyboardFirmware.Lib.StateRun
import KeyboardFirmware.Lib.WrappingMemory

namespace KeyboardFirmware.Avr

open Lib

/-- A data pointer: 16 bits. -/
abbrev Addr := Fin 65536

/-- `avr_eeprom_read_byte`. -/
def avrEepromReadByte (addr : Addr) : StateM (Addr → Byte) Byte := fun m => (m addr, m)

/-- `avr_eeprom_write_byte`. -/
def avrEepromWriteByte (dst : Addr) (b : Byte) : StateM (Addr → Byte) Unit :=
  modify fun m => Function.update m dst b

/-- The loop of `avr_eeprom_memmove`; `back` is the negative direction. -/
def avrEepromMemmoveLoop (back : Bool) : Addr → Addr → Nat → StateM (Addr → Byte) Unit
  | _, _, 0 => return
  | dstBytes, srcBytes, count + 1 => do
    let b ← avrEepromReadByte srcBytes
    avrEepromWriteByte dstBytes b
    if back then avrEepromMemmoveLoop back (dstBytes - 1) (srcBytes - 1) count
    else avrEepromMemmoveLoop back (dstBytes + 1) (srcBytes + 1) count

/-- `avr_eeprom_memmove`, which reports no errors: backwards, the cursors point to the last bytes. -/
def avrEepromMemmove (dst src : Addr) (count : Nat) : StateM (Addr → Byte) Byte := do
  if src < dst then
    avrEepromMemmoveLoop true (dst + (Fin.ofNat 65536 count - 1)) (src + (Fin.ofNat 65536 count - 1)) count
  else avrEepromMemmoveLoop false dst src count
  return 0

variable {m : Addr → Byte} {dst src : Addr} {count : Nat}

/-- A move of one byte. -/
theorem moveRange_one (m : Addr → Byte) (dst src : Addr) :
    moveRange m dst src 1 = Function.update m dst (m src) := by
  have hread : readRange m src 1 = [m src] := readRange_succ m src 0
  rw [moveRange, hread, writeRange_cons m dst _ (by simp), writeRange_nil]

theorem forward_exact : ∀ (count : Nat) {dst src : Addr} {m : Addr → Byte}, dst ≤ src →
    src.val + count ≤ 65536 → (avrEepromMemmoveLoop false dst src count m).2 = moveRange m dst src count
  | 0, _, _, _, _, _ => rfl
  | 1, dst, src, m, _, _ => (moveRange_one m dst src).symm
  | count + 2, dst, src, m, hle, hend => by
    have hbelow : dst.val ≤ src.val := hle
    have hsrc : (src + 1).val = src.val + 1 := val_add_ofNat (n := 1) (by omega)
    have hdst : (dst + 1).val = dst.val + 1 := val_add_ofNat (n := 1) (by omega)
    have hnext : dst + 1 ≤ src + 1 := by
      rw [Fin.le_def, hsrc, hdst]
      omega
    have hrest := forward_exact (count + 1) (m := Function.update m dst (m src)) hnext (by omega)
    have hmove := moveRange_front m hle (show src.val + (1 + (count + 1)) ≤ 65536 by omega)
    rw [moveRange_one, Nat.add_comm 1] at hmove
    exact hrest.trans hmove.symm

theorem backward_exact : ∀ (count : Nat) {dst src : Addr} {m : Addr → Byte}, src ≤ dst →
    dst.val + (count + 1) ≤ 65536 → (avrEepromMemmoveLoop true (dst + Fin.ofNat 65536 count)
      (src + Fin.ofNat 65536 count) (count + 1) m).2 = moveRange m dst src (count + 1)
  | 0, dst, src, m, _, _ => by
    rw [moveRange_one, Fin.ofNat_zero, add_zero, add_zero]
    rfl
  | count + 1, dst, src, m, hle, hend => by
    have hlast : ∀ a : Addr, a + Fin.ofNat 65536 (count + 1) - 1 = a + Fin.ofNat 65536 count := by
      intro a
      rw [add_ofNat_add]
      exact add_sub_cancel_right _ _
    have hrest := backward_exact count
      (m := Function.update m (dst + Fin.ofNat 65536 (count + 1)) (m (src + Fin.ofNat 65536 (count + 1))))
      hle (by omega)
    rw [moveRange_back m hle (k := count + 1) (n := 1) (by omega), moveRange_one, ← hrest, ← hlast,
      ← hlast]
    rfl

/-- **`avr_eeprom_memmove` is `memmove`**. -/
theorem avrEepromMemmove_exact (m : Addr → Byte) (dst src : Addr) (count : Nat)
    (hdst : dst.val + count ≤ 65536) (hsrc : src.val + count ≤ 65536) :
    (avrEepromMemmove dst src count m).2 = moveRange m dst src count := by
  rw [avrEepromMemmove]
  split
  · next hlt =>
    cases count with
    | zero => rfl
    | succ count =>
      have hlast : Fin.ofNat 65536 (count + 1) - 1 = Fin.ofNat 65536 count := by
        rw [← ofNat_add_ofNat]
        exact add_sub_cancel_right _ _
      rw [hlast]
      exact backward_exact count (le_of_lt hlt) hdst
  · next hge => exact forward_exact count (not_lt.mp hge) hsrc

end KeyboardFirmware.Avr
