/-
  Where the folder's arithmetic and the VM's agree on literals.

  All operators but `/` and `%` are the same fixed-width ones on both sides.  Haskell's `div` and
  `mod` round towards minus infinity and C's `/` and `%` towards zero, so these two agree exactly
  where the division is exact or both operands have one sign (`inexact`).
-/
import KeyboardFirmware.Compiler.ConstantEval
import KeyboardFirmware.Compiler.Eval

namespace KeyboardFirmware.Compiler

open Vm

variable {n : Nat}

/-- The signs differ and the division leaves a remainder. -/
def roundsApart (a b : Int) : Bool := !(decide (b ∣ a)) && (decide (a < 0) != decide (b < 0))

/-- The literal operands on which the folder does not give the VM's value: a rounded quotient or
    remainder of mixed signs, and the quotient that GHC refuses as an overflow. -/
def inexact (op : BinaryOp) (a b : BitVec n) : Bool :=
  match op with
  | .divide => b != 0 && (roundsApart a.toInt b.toInt || (a == BitVec.intMin n && b == -1))
  | .mod => b != 0 && roundsApart a.toInt b.toInt
  | _ => false

/-- The same for operands of which only the truth of the result counts: a quotient of 0 on one side
    only. -/
def inexactTruth (op : BinaryOp) (a b : BitVec n) : Bool :=
  match op with
  | .divide => b != 0 && ((roundsApart a.toInt b.toInt && decide (a.toInt.natAbs < b.toInt.natAbs)) ||
      (a == BitVec.intMin n && b == -1))
  | _ => false

/-! ## Rounding of integers -/

theorem fdiv_eq_tdiv_sub (a b : Int) (hb : b ≠ 0) :
    a.fdiv b = a.tdiv b - if roundsApart a b then 1 else 0 := by
  rw [Int.fdiv_eq_tdiv]
  unfold roundsApart
  by_cases hd : b ∣ a
  · simp [hd]
  · have ha : a ≠ 0 := fun h => hd (h ▸ Int.dvd_zero b)
    have hneg : b < 0 → b.sign = -1 := Int.sign_eq_neg_one_of_neg
    have hpos : 0 < b → b.sign = 1 := Int.sign_eq_one_of_pos
    by_cases h1 : a < 0 <;> by_cases h2 : b < 0 <;> simp [hd, h1, h2] <;> omega

theorem fmod_eq_tmod_add (a b : Int) :
    a.fmod b = a.tmod b + if roundsApart a b then b else 0 := by
  rw [Int.fmod_eq_tmod]
  by_cases hd : b ∣ a
  · simp [roundsApart, hd]
  have hr : roundsApart a b = (decide (a < 0) != decide (b < 0)) := by simp [roundsApart, hd]
  rw [if_neg hd, hr]
  by_cases ha : a < 0 <;> by_cases hb : b < 0 <;> simp only [ha, hb, decide_true, decide_false]
  · rw [if_neg (by omega), if_neg (by omega)]
    show a.tmod b + 2 * (b.toNat : Int) = a.tmod b + 0
    omega
  · rw [if_neg (by omega), if_pos (by omega)]
    show a.tmod b + (b.natAbs : Int) = a.tmod b + b
    omega
  · rw [if_pos (by omega), if_neg (by omega)]
    rfl
  · rw [if_pos (by omega), if_pos (by omega)]
    rfl

/-! ## Rounding of words -/

theorem vmDivide_eq_ofInt (a b : BitVec n) :
    vmDivide a b = BitVec.ofInt n (a.toInt.tdiv b.toInt) := by
  apply BitVec.eq_of_toInt_eq
  show (a.sdiv b).toInt = _
  rw [BitVec.toInt_sdiv, BitVec.toInt_ofInt]

theorem vmMod_eq_ofInt (a b : BitVec n) : vmMod a b = BitVec.ofInt n (a.toInt.tmod b.toInt) := by
  show a.srem b = _
  rw [← BitVec.toInt_srem, BitVec.ofInt_toInt]

/-- Numbers closer than `2 ^ n` are different words. -/
theorem ofInt_add_ne (x d : Int) (hd : d ≠ 0) (hlt : d.natAbs < 2 ^ n) :
    BitVec.ofInt n (x + d) ≠ BitVec.ofInt n x := by
  intro h
  have hmod := congrArg BitVec.toInt h
  rw [BitVec.toInt_ofInt, BitVec.toInt_ofInt, Int.bmod_eq_bmod_iff_bmod_sub_eq_zero,
    show x + d - x = d by omega] at hmod
  refine hd (Int.eq_zero_of_dvd_of_natAbs_lt_natAbs (Int.dvd_of_bmod_eq_zero hmod) ?_)
  simpa using hlt

theorem toInt_natAbs_lt (b : BitVec n) (hb : b ≠ 0) : b.toInt ≠ 0 ∧ b.toInt.natAbs < 2 ^ n := by
  refine ⟨fun h => hb (BitVec.eq_of_toInt_eq (by simpa using h)), ?_⟩
  have h1 := b.isLt
  rw [BitVec.toInt_eq_toNat_cond]
  split <;> omega

theorem hsDiv_eq_iff (a b : BitVec n) (hn : 0 < n) (hb : b ≠ 0) :
    hsDiv a b = vmDivide a b ↔ roundsApart a.toInt b.toInt = false := by
  unfold hsDiv
  rw [vmDivide_eq_ofInt, fdiv_eq_tdiv_sub _ _ (toInt_natAbs_lt b hb).1]
  cases roundsApart a.toInt b.toInt with
  | false => simp
  | true =>
    have h2 : 1 < 2 ^ n := Nat.one_lt_two_pow (by omega)
    have hne := ofInt_add_ne (n := n) (a.toInt.tdiv b.toInt) (-1) (by omega) (by simpa using h2)
    simpa [Int.sub_eq_add_neg] using hne

theorem hsMod_eq_iff (a b : BitVec n) (hb : b ≠ 0) :
    hsMod a b = vmMod a b ↔ roundsApart a.toInt b.toInt = false := by
  unfold hsMod
  rw [vmMod_eq_ofInt, fmod_eq_tmod_add]
  obtain ⟨hne, hlt⟩ := toInt_natAbs_lt b hb
  cases roundsApart a.toInt b.toInt with
  | false => simp
  | true => simpa using ofInt_add_ne (a.toInt.tmod b.toInt) b.toInt hne hlt

/-! ## The operators -/

/-- Where the VM has a value, the folder gives it exactly on the operands that are not inexact. -/
theorem evalArith_iff {op : BinaryOp} {a b v : BitVec n} (hn : 0 < n)
    (h : vmArith op a b = some v) :
    divRaises op a b = false ∧ evalArith a op b = some v ↔ inexact op a b = false := by
  cases op <;> simp only [vmArith, reduceCtorEq] at h
  case divide =>
    split at h
    · cases h
    · rename_i hb
      cases h
      have hb' : b ≠ 0#n := hb
      simp [divRaises, evalArith, inexact, hsDiv_eq_iff a b hn hb, hb']
      tauto
  case mod =>
    split at h
    · cases h
    · rename_i hb
      cases h
      have hb' : b ≠ 0#n := hb
      simp [divRaises, evalArith, inexact, hsMod_eq_iff a b hb, hb']
  case lshift =>
    split at h <;> cases h
    simp [divRaises, evalArith, inexact, vmLshift]
  case rshift =>
    split at h <;> cases h
    simp [divRaises, evalArith, inexact, vmRshift]
  all_goals (cases h; simp [divRaises, evalArith, inexact])

theorem ofInt_bne_zero (d : Int) (hlt : d.natAbs < 2 ^ n) :
    (BitVec.ofInt n d != 0) = (d != 0) := by
  by_cases hd : d = 0
  · subst hd
    simp
  · have hne := ofInt_add_ne (n := n) 0 d hd hlt
    have h0 : BitVec.ofInt n d ≠ 0 := by simpa using hne
    rw [bne_iff_ne.mpr hd, bne_iff_ne.mpr h0]

theorem toInt_natAbs_le (a : BitVec n) (hn : 0 < n) : a.toInt.natAbs ≤ 2 ^ (n - 1) := by
  have h1 := a.isLt
  have h2 : 2 ^ n = 2 * 2 ^ (n - 1) := by
    rw [← Nat.pow_succ', Nat.succ_eq_add_one, Nat.sub_add_cancel hn]
  rw [BitVec.toInt_eq_toNat_cond]
  split <;> omega

/-- A quotient of mixed signs that leaves a remainder is negative, or 0 for a small dividend. -/
theorem tdiv_of_roundsApart {a b : Int} (hb : b ≠ 0) (h : roundsApart a b = true) :
    (a.tdiv b = 0 ↔ a.natAbs < b.natAbs) ∧ a.tdiv b ≤ 0 := by
  have hzero : a.tdiv b = 0 ↔ a.natAbs < b.natAbs := by
    rw [← Int.natAbs_eq_zero, Int.natAbs_tdiv, show Nat.div a.natAbs b.natAbs = a.natAbs / b.natAbs
      from rfl, Nat.div_eq_zero_iff]
    omega
  refine ⟨hzero, ?_⟩
  have hsign := Int.sign_tdiv a b
  split at hsign
  · omega
  · have hsigns : (decide (a < 0) != decide (b < 0)) = true := by
      simp only [roundsApart, Bool.and_eq_true] at h
      exact h.2
    have hneg : a.sign * b.sign ≤ 0 := by
      by_cases ha : a < 0 <;> by_cases hb' : b < 0 <;> simp [ha, hb'] at hsigns
      · rw [Int.sign_eq_neg_one_of_neg ha, Int.sign_eq_one_of_pos (by omega)]
        decide
      · rw [Int.sign_eq_neg_one_of_neg hb']
        have := Int.sign_nonneg_iff.mpr (show 0 ≤ a by omega)
        omega
    rw [← hsign] at hneg
    exact Int.sign_nonpos_iff.mp hneg

/-- The remainders of mixed signs are neither of them 0. -/
theorem tmod_of_roundsApart {a b : Int} (hb : b ≠ 0) (h : roundsApart a b = true) :
    a.tmod b ≠ 0 ∧ a.tmod b + b ≠ 0 := by
  have hdvd : ¬ b ∣ a := by
    simp only [roundsApart, Bool.and_eq_true, Bool.not_eq_true', decide_eq_false_iff_not] at h
    exact h.1
  refine ⟨fun h0 => hdvd (Int.dvd_of_tmod_eq_zero h0), fun h0 => ?_⟩
  have hlt : (a.tmod b).natAbs < b.natAbs := by
    rw [Int.natAbs_tmod]
    exact Nat.mod_lt _ (by omega)
  omega

theorem hsDiv_truth_iff (a b : BitVec n) (hn : 1 < n) (hb : b ≠ 0) :
    (hsDiv a b != 0) = (vmDivide a b != 0) ↔
      (roundsApart a.toInt b.toInt && decide (a.toInt.natAbs < b.toInt.natAbs)) = false := by
  have hle := toInt_natAbs_le a (by omega)
  have hq := Int.natAbs_tdiv_le_natAbs a.toInt b.toInt
  have h2 : 2 ^ n = 2 * 2 ^ (n - 1) := by
    rw [← Nat.pow_succ', Nat.succ_eq_add_one, Nat.sub_add_cancel (by omega)]
  have h3 : 1 < 2 ^ (n - 1) := Nat.one_lt_two_pow (by omega)
  unfold hsDiv
  rw [vmDivide_eq_ofInt, fdiv_eq_tdiv_sub _ _ (toInt_natAbs_lt b hb).1,
    ofInt_bne_zero _ (by split <;> omega), ofInt_bne_zero _ (by omega)]
  cases h : roundsApart a.toInt b.toInt with
  | false => simp
  | true =>
    obtain ⟨hzero, hneg⟩ := tdiv_of_roundsApart (toInt_natAbs_lt b hb).1 h
    by_cases hlt : a.toInt.natAbs < b.toInt.natAbs
    · simp [hlt, hzero.mpr hlt]
    · have hne : a.toInt.tdiv b.toInt ≠ 0 := fun h => hlt (hzero.mp h)
      rw [bne_iff_ne.mpr hne, bne_iff_ne.mpr (by simp; omega)]
      simp [hlt]

theorem hsMod_truth (a b : BitVec n) (hn : 0 < n) (hb : b ≠ 0) :
    (hsMod a b != 0) = (vmMod a b != 0) := by
  obtain ⟨hb0, -⟩ := toInt_natAbs_lt b hb
  have hle := toInt_natAbs_le b hn
  have h2 : 2 ^ n = 2 * 2 ^ (n - 1) := by
    rw [← Nat.pow_succ', Nat.succ_eq_add_one, Nat.sub_add_cancel hn]
  have hlt : (a.toInt.tmod b.toInt).natAbs < b.toInt.natAbs := by
    rw [Int.natAbs_tmod]
    exact Nat.mod_lt _ (by omega)
  unfold hsMod
  rw [vmMod_eq_ofInt, fmod_eq_tmod_add, ofInt_bne_zero (a.toInt.tmod b.toInt) (by omega)]
  cases h : roundsApart a.toInt b.toInt with
  | false =>
    rw [if_neg (by decide), Int.add_zero]
    exact ofInt_bne_zero _ (by omega)
  | true =>
    obtain ⟨h1, h2⟩ := tmod_of_roundsApart hb0 h
    rw [if_pos rfl, ofInt_bne_zero _ (by omega), bne_iff_ne.mpr h1, bne_iff_ne.mpr h2]

/-- Where the VM has a value, the folder gives one of its truth exactly on the operands that are
    not inexact in their truth. -/
theorem evalArith_truth_iff {op : BinaryOp} {a b v w : BitVec n} (hn : 1 < n)
    (h : vmArith op a b = some v) (hw : evalArith a op b = some w) :
    divRaises op a b = false ∧ (w != 0) = (v != 0) ↔ inexactTruth op a b = false := by
  by_cases hop : op = .divide ∨ op = .mod
  · have hb : b ≠ 0 := by
      rintro rfl
      rcases hop with rfl | rfl <;> simp [vmArith] at h
    have hb' : b ≠ 0#n := hb
    rcases hop with rfl | rfl
    · simp only [vmArith, if_neg hb, Option.some.injEq] at h
      simp only [evalArith, Option.some.injEq] at hw
      subst h hw
      rw [hsDiv_truth_iff a b hn hb]
      simp [divRaises, inexactTruth, hb']
      tauto
    · simp only [vmArith, if_neg hb, Option.some.injEq] at h
      simp only [evalArith, Option.some.injEq] at hw
      subst h hw
      rw [hsMod_truth a b (by omega) hb]
      simp [divRaises, inexactTruth, hb']
  · have hx : inexact op a b = false := by cases op <;> simp_all [inexact]
    have hx' : inexactTruth op a b = false := by cases op <;> simp_all [inexactTruth]
    obtain ⟨hraise, heq⟩ := (evalArith_iff (by omega) h).mpr hx
    rw [hw] at heq
    cases heq
    simp [hraise, hx']

/-- The folder has a value wherever the VM has. -/
theorem evalArith_of_vmArith {op : BinaryOp} {a b v : BitVec n} (h : vmArith op a b = some v) :
    ∃ w, evalArith a op b = some w := by
  cases op <;> simp_all [vmArith, evalArith]

/-- Comparing and testing gives the relation that the folder computes. -/
theorem evalComparison_eq (op : BinaryOp) (a b : BitVec n) :
    evalComparison a op b = vmCompare op a b := by
  obtain ⟨hgt, hge, hlt, hle, heq, hne⟩ := vmIfCheck_vmCmp a b
  cases op <;> simp [evalComparison, vmCompare, conditionFor, BinaryOp.isComparison, *]

/-- A comparison raises no exception and is exact. -/
theorem divRaises_of_comparison {op : BinaryOp} {a b : BitVec n} {c : Bool}
    (h : vmCompare op a b = some c) :
    divRaises op a b = false ∧ inexact op a b = false ∧ inexactTruth op a b = false := by
  cases op <;> simp [vmCompare, conditionFor, BinaryOp.isComparison, divRaises, inexact, inexactTruth] at h ⊢

/-- The folder applies arithmetic where the VM does. -/
theorem evalArith_none_of_comparison {op : BinaryOp} {a b : BitVec n} {c : Bool}
    (h : vmCompare op a b = some c) : evalArith a op b = none ∧ vmArith op a b = none := by
  cases op <;> simp [vmCompare, conditionFor, BinaryOp.isComparison, evalArith, vmArith] at h ⊢

end KeyboardFirmware.Compiler
