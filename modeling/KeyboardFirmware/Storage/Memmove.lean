/-
  `spi_eeprom_memmove`, as what it does to the contents of the chip.

  The chunks are page writes, so the loop on the bus is a loop over the contents (`memmoveContents`).
  Forwards, a chunk ends with the page of the destination and the chunks make up the move.  Backwards,
  the cursors start at the first byte of the ranges instead of behind the last: the loop goes down from
  there, and never reads the first byte of the source (`memmoveContents_agree`).
-/
import KeyboardFirmware.Storage.Contents
import KeyboardFirmware.Storage.Operations

namespace KeyboardFirmware.Spi

open Lib

/-- The loop of `spi_eeprom_memmove` over the contents. -/
def memmoveContents (arch : Arch) (back : Bool) (dst src : Addr) (count : Nat) (m : Addr → Byte) :
    Addr → Byte :=
  if _h : count = 0 then m
  else
    let n := pagePart arch back dst count
    let step := Fin.ofNat 65536 n
    if back then
      memmoveContents arch back (dst - step) (src - step) (count - n)
        (pageWrite arch.pageSize m (dst - step) (readRange m (src - step) n))
    else
      memmoveContents arch back (dst + step) (src + step) (count - n)
        (pageWrite arch.pageSize m dst (readRange m src n))
termination_by count
decreasing_by
  all_goals exact Nat.sub_lt (Nat.pos_of_ne_zero ‹_›) (pagePart_pos arch back dst ‹_›)

variable {arch : Arch} {d d₀ : Device} {cycle : Option Nat} {m m' : Addr → Byte} {dst src s : Addr}
  {count : Nat}

/-- A chunk: the read, the page write, and then the rest. -/
theorem During.chunk {within : Prop} (src dst : Addr) {n : Nat} (hn : n ≤ arch.pageSize)
    (hin : within → dst.val % arch.pageSize + n ≤ arch.pageSize) (rest : StateM Device StorageErr)
    (h : During arch within d₀ .deselected cycle m d) :
    ∃ cycle' d', During arch within d₀ .deselected cycle'
        (pageWrite arch.pageSize m dst (readRange m src n)) d' ∧
      (do
        spiEepromWaitForLastWriteEnd arch
        let buf ← spiEepromRead arch src n
        if buf.length ≠ n then return (← get).storageErrno
        let w ← spiEepromWritePage arch dst buf
        if w.toInt ≠ n then return (← get).storageErrno
        rest) d = rest d' := by
  obtain ⟨hbuf, hread⟩ := h.wait.eepromRead src n
  have hlen : (readRange m src n).length = n := readRange_length _ _ _
  obtain ⟨hw, cycle', hwrite⟩ := hread.writePage dst (readRange m src n) (by rwa [hlen])
  refine ⟨cycle', _, hwrite, ?_⟩
  rw [hlen] at hw
  rw [stateM_bind, stateM_bind, hbuf, if_neg (not_not_intro hlen), stateM_bind, hw,
    if_neg (not_not_intro (toInt_ofNat_page arch hn))]

/-- **The loop on the bus** does to the contents what the loop over the contents does. -/
theorem During.memmoveLoop {within : Prop} (back : Bool) (dst src : Addr) (count : Nat)
    (hback : within → back = false) (h : During arch within d₀ .deselected cycle m d) :
    ∃ cycle', During arch within d₀ .deselected cycle' (memmoveContents arch back dst src count m)
      (spiEepromMemmoveLoop arch back dst src count d).2 := by
  induction count using Nat.strong_induction_on generalizing dst src m d cycle with
  | _ count ih =>
  rw [spiEepromMemmoveLoop, memmoveContents]
  split
  · exact ⟨cycle, h⟩
  · next hcount =>
    have hlt : count - pagePart arch back dst count < count :=
      Nat.sub_lt (Nat.pos_of_ne_zero hcount) (pagePart_pos arch back dst hcount)
    have hpage := (pagePart_le arch back dst count).2
    cases back with
    | true =>
      have hwithin : ¬ within := fun hw => Bool.noConfusion (hback hw)
      obtain ⟨cycle', d', hchunk, heq⟩ := h.chunk (src - Fin.ofNat 65536 (pagePart arch true dst count))
        (dst - Fin.ofNat 65536 (pagePart arch true dst count)) hpage (fun hw => absurd hw hwithin)
        (spiEepromMemmoveLoop arch true (dst - Fin.ofNat 65536 (pagePart arch true dst count))
          (src - Fin.ofNat 65536 (pagePart arch true dst count)) (count - pagePart arch true dst count))
      simp only [if_true]
      rw [heq]
      exact ih _ hlt _ _ hchunk
    | false =>
      obtain ⟨cycle', d', hchunk, heq⟩ := h.chunk src dst hpage
        (fun _ => pagePart_within arch dst count)
        (spiEepromMemmoveLoop arch false (dst + Fin.ofNat 65536 (pagePart arch false dst count))
          (src + Fin.ofNat 65536 (pagePart arch false dst count)) (count - pagePart arch false dst count))
      simp only [Bool.false_eq_true, if_false]
      rw [heq]
      exact ih _ hlt _ _ hchunk

/-! ## Forwards -/

/-- **Forwards**, the chunks make up the move. -/
theorem memmoveContents_forward (arch : Arch) (dst src : Addr) (count : Nat) (m : Addr → Byte)
    (hle : dst ≤ src) (hend : src.val + count ≤ 65536) :
    memmoveContents arch false dst src count m = moveRange m dst src count := by
  induction count using Nat.strong_induction_on generalizing dst src m with
  | _ count ih =>
  rw [memmoveContents]
  split
  · next hzero => rw [hzero]; rfl
  · next hcount =>
    have hpos := pagePart_pos arch false dst hcount
    have hpart := (pagePart_le arch false dst count).1
    have hwithin := pagePart_within arch dst count
    generalize pagePart arch false dst count = n at *
    simp only [Bool.false_eq_true, if_false]
    have hwrite : pageWrite arch.pageSize m dst (readRange m src n) = moveRange m dst src n :=
      pageWrite_eq_writeRange arch _ m dst (by rwa [readRange_length])
    have hmove : moveRange m dst src count =
        moveRange (moveRange m dst src n) (dst + Fin.ofNat 65536 n) (src + Fin.ofNat 65536 n) (count - n) := by
      rw [← moveRange_front m hle (show src.val + (n + (count - n)) ≤ 65536 by omega)]
      congr 1
      omega
    rw [hwrite, hmove]
    rcases Nat.eq_zero_or_pos (count - n) with hlast | hmore
    · rw [hlast, memmoveContents, dif_pos rfl]
      rfl
    · have hsrc : (src + Fin.ofNat 65536 n).val = src.val + n := val_add_ofNat (by omega)
      have hbelow : dst.val ≤ src.val := hle
      have hdst : (dst + Fin.ofNat 65536 n).val = dst.val + n := val_add_ofNat (by omega)
      refine ih _ (by omega) _ _ _ ?_ (by omega)
      rw [Fin.le_def, hsrc, hdst]
      exact Nat.add_le_add_right hle n

/-! ## Backwards -/

/-- What a page write leaves elsewhere does not depend on what lies at `s`. -/
theorem pageWrite_agree {pageSize : Nat} : ∀ (buf : List Byte) {m m' : Addr → Byte} (a : Addr),
    (∀ x, x ≠ s → m x = m' x) →
    ∀ x, x ≠ s → pageWrite pageSize m a buf x = pageWrite pageSize m' a buf x
  | [], _, _, _, h => h
  | b :: buf, m, m', a, h => by
    apply pageWrite_agree buf
    intro x hx
    rw [Function.update_apply, Function.update_apply, h x hx]

/-- The byte behind the ranges that the loop reads is read by no chunk. -/
theorem memmoveContents_agree (arch : Arch) (dst src : Addr) (count : Nat) {m m' : Addr → Byte}
    (hcount : count < 65536) (hs : count ≤ (s - (src - Fin.ofNat 65536 count)).val)
    (h : ∀ x, x ≠ s → m x = m' x) : ∀ x, x ≠ s →
      memmoveContents arch true dst src count m x = memmoveContents arch true dst src count m' x := by
  induction count using Nat.strong_induction_on generalizing dst src m m' with
  | _ count ih =>
  rw [memmoveContents, memmoveContents]
  split
  · exact h
  · next hzero =>
    have hpos := pagePart_pos arch true dst hzero
    have hpart := (pagePart_le arch true dst count).1
    generalize pagePart arch true dst count = n at *
    simp only [if_true]
    -- the cursor goes down by what the count does, so the end of the range stays
    have hlow : src - Fin.ofNat 65536 n - Fin.ofNat 65536 (count - n) = src - Fin.ofNat 65536 count := by
      rw [sub_sub, ofNat_add_ofNat, show n + (count - n) = count by omega]
    have hread : readRange m (src - Fin.ofNat 65536 n) n = readRange m' (src - Fin.ofNat 65536 n) n := by
      apply readRange_congr
      intro i hi
      apply h
      intro heq
      have hoffset : src - Fin.ofNat 65536 n + Fin.ofNat 65536 i - (src - Fin.ofNat 65536 count) =
          Fin.ofNat 65536 (count - n + i) := by
        have hsplit := add_ofNat_add (src - Fin.ofNat 65536 count) (count - n) i
        rw [← hlow, sub_add_cancel] at hsplit
        rw [← hlow, ← hsplit, add_sub_cancel_left]
      have hval : (Fin.ofNat 65536 (count - n + i)).val = count - n + i := Nat.mod_eq_of_lt (by omega)
      rw [← heq, hoffset, hval] at hs
      omega
    rw [hread]
    refine ih _ (by omega) _ _ (by omega) (by rw [hlow]; omega) ?_
    exact pageWrite_agree _ _ h

/-! ## The move -/

theorem spiEepromMemmove_contents (arch : Arch) (dst src : Addr) (count : Nat)
    (h : d.chip.phase = .deselected) : (spiEepromMemmove arch dst src count d).2.chip.memory =
      memmoveContents arch (src < dst) dst src count d.chip.memory := by
  obtain ⟨cycle', hend⟩ := (During.start arch False h).memmoveLoop (src < dst) dst src count False.elim
  exact hend.memory

/-- A device at rest, with some contents. -/
def storing (m : Addr → Byte) : Device := { erased with chip := { erased.chip with memory := m } }

end KeyboardFirmware.Spi
