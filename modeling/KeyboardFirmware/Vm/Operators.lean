/-
  The operators of the virtual machine, as `vm_step` applies them to popped operands.

  C computes on `int` and the push truncates to the width of the operand, so every operator is the
  fixed-width one; `/` and `%` round towards zero.  The two widths have the same operators.
-/
import KeyboardFirmware.Compiler.Syntax

namespace KeyboardFirmware.Vm

open Compiler

variable {n : Nat}

/-- `a / b` of `BDIVIDE`, `SDIVIDE`. -/
def vmDivide (a b : BitVec n) : BitVec n := a.sdiv b

/-- `a % b` of `BMOD`, `SMOD`. -/
def vmMod (a b : BitVec n) : BitVec n := a.srem b

/-- `v << s`; C gives no meaning to a negative count or one of the width of `int` on. -/
def vmLshift {m : Nat} (v : BitVec n) (s : BitVec m) : BitVec n := v <<< s.toNat

/-- `v >> s`. -/
def vmRshift {m : Nat} (v : BitVec n) (s : BitVec m) : BitVec n := v.sshiftRight s.toNat

/-- `(a > b) ? 1 : (a == b) ? 0 : -1` of `BCMP`, `SCMP`. -/
def vmCmp (a b : BitVec n) : VByte := if b.slt a then 1 else if a = b then 0 else -1

/-- `(vshort) b` of `B2S`. -/
def vmB2S (b : VByte) : VShort := b.signExtend 16

/-- `(vbyte) s` of `S2B`. -/
def vmS2B (s : VShort) : VByte := s.signExtend 8

/-- The two bytes of a short on the stack: the low byte stands at the lower address. -/
def lowByte (s : VShort) : VByte := BitVec.ofNat 8 s.toNat

/-- The upper byte of a short. -/
def highByte (s : VShort) : VByte := BitVec.ofNat 8 (s.toNat / 256)

/-- A short from its two bytes. -/
def shortOf (lo hi : VByte) : VShort := BitVec.ofNat 16 (lo.toNat + 256 * hi.toNat)

@[simp] theorem shortOf_bytes (s : VShort) : shortOf (lowByte s) (highByte s) = s := by
  apply BitVec.eq_of_toNat_eq
  simp only [shortOf, lowByte, highByte, BitVec.toNat_ofNat]
  omega

@[simp] theorem lowByte_shortOf (lo hi : VByte) : lowByte (shortOf lo hi) = lo := by
  apply BitVec.eq_of_toNat_eq
  simp only [shortOf, lowByte, BitVec.toNat_ofNat]
  omega

@[simp] theorem highByte_shortOf (lo hi : VByte) : highByte (shortOf lo hi) = hi := by
  apply BitVec.eq_of_toNat_eq
  simp only [shortOf, highByte, BitVec.toNat_ofNat]
  omega

/-- `CondOp`, and the tests of `vm_if_check`. -/
inductive CondOp where
  | ifEq
  | ifNe
  | ifLt
  | ifGt
  | ifLe
  | ifGe
  deriving DecidableEq, Repr

/-- `conditionFor`, of the code generator: the test for a relational operator. -/
def conditionFor : BinaryOp → CondOp
  | .gt => .ifGt
  | .lt => .ifLt
  | .le => .ifLe
  | .ge => .ifGe
  | .eq => .ifEq
  | _ => .ifNe

/-- `vm_if_check`: the test of a popped byte against zero. -/
def vmIfCheck : CondOp → VByte → Bool
  | .ifEq, val => val == 0
  | .ifNe, val => val != 0
  | .ifLt, val => val.slt 0
  | .ifGt, val => (0 : VByte).slt val
  | .ifGe, val => (0 : VByte).sle val
  | .ifLe, val => val.sle 0

/-- The test after a comparison asks for the sign of the comparison. -/
theorem vmIfCheck_vmCmp (a b : BitVec n) :
    vmIfCheck .ifGt (vmCmp a b) = b.slt a ∧ vmIfCheck .ifGe (vmCmp a b) = b.sle a ∧
      vmIfCheck .ifLt (vmCmp a b) = a.slt b ∧ vmIfCheck .ifLe (vmCmp a b) = a.sle b ∧
      vmIfCheck .ifEq (vmCmp a b) = (a == b) ∧ vmIfCheck .ifNe (vmCmp a b) = (a != b) := by
  have heq : (a = b) ↔ a.toInt = b.toInt := BitVec.toInt_inj.symm
  simp only [vmCmp]
  by_cases hlt : b.toInt < a.toInt
  · have h1 : b.slt a = true := BitVec.slt_iff_toInt_lt.mpr hlt
    have hne : a ≠ b := fun h => by rw [h] at hlt; omega
    rw [if_pos h1]
    simp [vmIfCheck, BitVec.slt_eq_decide, BitVec.sle_eq_decide, hne]
    omega
  · have h1 : b.slt a = false := by
      rw [BitVec.slt_eq_decide]; exact decide_eq_false hlt
    rw [h1]
    by_cases hab : a = b
    · subst hab
      simp [vmIfCheck, BitVec.slt_eq_decide, BitVec.sle_eq_decide]
    · have hne : a.toInt ≠ b.toInt := fun h => hab (heq.mpr h)
      simp [vmIfCheck, BitVec.slt_eq_decide, BitVec.sle_eq_decide, hab]
      omega

end KeyboardFirmware.Vm
