import Mathlib.Algebra.Order.Ring.Int
import Mathlib.Tactic.Common

/-! Serial numbers: 32-bit words that stand for unbounded positions.
Position `x` has the word `serial x`; two positions less than half the circle apart are
compared by the sign of the difference of their words. -/
namespace Vessel.Serial

/-- The word of a position. -/
def serial (x : ℤ) : BitVec 32 := BitVec.ofInt 32 x

def wrapsLt (a b : BitVec 32) : Bool := (a - b).toInt < 0

def wrapsLte (a b : BitVec 32) : Bool := (a - b).toInt ≤ 0

def wrapsGt (a b : BitVec 32) : Bool := (b - a).toInt < 0

def wrapsGte (a b : BitVec 32) : Bool := (b - a).toInt ≤ 0

section Words

variable {x y : ℤ}

@[simp] theorem serial_add (x y : ℤ) : serial x + serial y = serial (x+y) :=
  (BitVec.ofInt_add ..).symm

@[simp] theorem serial_sub (x y : ℤ) : serial x - serial y = serial (x-y) := by
  apply BitVec.eq_of_toInt_eq
  simp [serial,BitVec.toInt_sub,BitVec.toInt_ofInt]

theorem serial_toInt (h : -(2^31) ≤ x) (h' : x < 2^31) : (serial x).toInt = x := by
  rw [serial,BitVec.toInt_ofInt]
  exact Int.bmod_eq_of_le (by omega) (by omega)

theorem serial_toNat (h : 0 ≤ x) (h' : x < 2^32) : (serial x).toNat = x.toNat := by
  rw [serial,BitVec.toNat_ofInt,Int.emod_eq_of_lt h (by omega)]

theorem serial_natCast (n : ℕ) : serial n = BitVec.ofNat 32 n := by
  apply BitVec.eq_of_toNat_eq
  simp only [serial,BitVec.toNat_ofInt,BitVec.toNat_ofNat]
  omega

@[simp] theorem serial_self (b : BitVec 32) : serial b.toNat = b := by
  rw [serial_natCast,BitVec.ofNat_toNat,BitVec.setWidth_eq]

theorem serial_sub_circle (x : ℤ) : serial (x - 2^32) = serial x := by
  rw [← serial_sub]
  exact BitVec.sub_zero _

theorem exists_serial_near (n : ℤ) (s : BitVec 32) :
    ∃ x, s = serial x ∧ n - 2^31 ≤ x ∧ x < n + 2^31 := by
  have hlo := BitVec.le_two_mul_toInt (x:=s - serial n)
  have hhi := BitVec.two_mul_toInt_lt (x:=s - serial n)
  refine ⟨n + (s - serial n).toInt,?_,by omega,by omega⟩
  rw [← serial_add,serial,serial,BitVec.ofInt_toInt,BitVec.add_comm,BitVec.sub_add_cancel]

theorem serial_inj (h : serial x = serial y) (hlo : x < y + 2^32) (hhi : y < x + 2^32) : x = y := by
  have hz : serial (x-y) = serial 0 := by
    rw [← serial_sub,h,serial_sub,Int.sub_self]
  have hmod := congrArg BitVec.toNat hz
  simp only [serial,BitVec.toNat_ofInt] at hmod
  omega

end Words

/-! ### Comparisons of near positions -/

section Compare

variable {x y : ℤ}

theorem wrapsLt_serial (h : -(2^31) ≤ x-y) (h' : x-y < 2^31) :
    wrapsLt (serial x) (serial y) = true ↔ x < y := by
  rw [wrapsLt,serial_sub,serial_toInt h h',decide_eq_true_eq]
  omega

/-- Beyond half the circle the order turns round. -/
theorem wrapsLt_serial_far (h : x + 2^31 < y) (h' : y < x + 2^32) :
    wrapsLt (serial x) (serial y) = false := by
  rw [← serial_sub_circle y,← Bool.not_eq_true,wrapsLt_serial (by omega) (by omega)]
  omega

theorem wrapsLte_serial (h : -(2^31) ≤ x-y) (h' : x-y < 2^31) :
    wrapsLte (serial x) (serial y) = true ↔ x ≤ y := by
  rw [wrapsLte,serial_sub,serial_toInt h h',decide_eq_true_eq]
  omega

theorem wrapsGt_serial (h : -(2^31) ≤ y-x) (h' : y-x < 2^31) :
    wrapsGt (serial x) (serial y) = true ↔ y < x := wrapsLt_serial h h'

/-- Only words half a circle apart are neither in one order nor in the other. -/
theorem wrapsLte_of_not_wrapsGt {a b : BitVec 32} (h : wrapsGt a b = false) :
    wrapsLte a b = true := by
  have hneg : a - b = -(b - a) := by bv_omega
  have hlt := BitVec.two_mul_toInt_lt (x:=b - a)
  rw [wrapsGt,decide_eq_false_iff_not] at h
  rw [wrapsLte,decide_eq_true_eq,hneg,BitVec.toInt_neg,Int.bmod_eq_of_le (by omega) (by omega)]
  omega

end Compare

end Vessel.Serial
