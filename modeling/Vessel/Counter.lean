import Mathlib.Data.Nat.Bitwise
import Mathlib.Data.Nat.ModEq
import Mathlib.Tactic.Common
import Mathlib.Tactic.Ring

/-! Wrapping 32-bit counters that stand for unbounded ones.
A counter that has been advanced `n` times holds `BitVec.ofNat 32 n`.  Distances between
two counters, slots of a power-of-two table and the parity of a lap around the table are
recovered from the wrapped words. -/
namespace Vessel.Counter

/-- The word of a counter advanced `n` times. -/
abbrev word (n : ℕ) : BitVec 32 := BitVec.ofNat 32 n

@[simp] theorem word_add_one (n : ℕ) : word n + 1 = word (n+1) := by
  apply BitVec.eq_of_toNat_eq
  simp [BitVec.toNat_add]

theorem word_succ_ne (n : ℕ) : word (n+1) ≠ word n := by
  intro h
  have := congrArg BitVec.toNat h
  simp only [BitVec.toNat_ofNat] at this
  omega

/-- Unsigned subtraction gives the true distance while it fits in a word. -/
theorem sub_toNat {h t : ℕ} (hle : t ≤ h) (hlt : h - t < 2^32) :
    (word h - word t).toNat = h - t := by
  simp only [BitVec.toNat_sub,BitVec.toNat_ofNat]
  omega

theorem size_toNat {k : ℕ} (hk : k < 32) : (word (2^k)).toNat = 2^k := by
  rw [BitVec.toNat_ofNat,Nat.mod_eq_of_lt]
  exact Nat.pow_lt_pow_right (by norm_num) hk

theorem and_mask_toNat {k : ℕ} (hk : k < 32) (n : ℕ) :
    (word n &&& (word (2^k) - 1)).toNat = n % 2^k := by
  have hm : (word (2^k) - 1).toNat = 2^k - 1 := by
    have hp : 1 ≤ 2^k := Nat.one_le_two_pow
    have hl : 2^k - 1 < 2^32 := by
      have := Nat.pow_lt_pow_right (a:=2) (by norm_num) hk
      omega
    exact sub_toNat hp hl
  rw [BitVec.toNat_and,hm,BitVec.toNat_ofNat,Nat.and_two_pow_sub_one_eq_mod]
  exact Nat.mod_mod_of_dvd _ (pow_dvd_pow 2 hk.le)

/-- Laps around the table are told apart by one bit of the counter. -/
def oddLap (k n : ℕ) : Bool := n.testBit k

theorem and_size_eq_zero {k : ℕ} (hk : k < 32) (n : ℕ) :
    word n &&& word (2^k) = 0 ↔ oddLap k n = false := by
  have hb : (word n &&& word (2^k)).toNat = 2^k * (n.testBit k).toNat := by
    rw [BitVec.toNat_and,size_toNat hk,BitVec.toNat_ofNat,Nat.and_two_pow,Nat.testBit_mod_two_pow]
    simp [hk,Nat.mul_comm]
  rw [← BitVec.toNat_inj,hb]
  cases h : n.testBit k <;> simp [oddLap,h]

theorem oddLap_of_lt {k n : ℕ} (h : n < 2^k) : oddLap k n = false := Nat.testBit_lt_two_pow h

theorem oddLap_add (k n : ℕ) : oddLap k (n+2^k) = !oddLap k n := by
  rw [oddLap,oddLap,Nat.add_comm,Nat.testBit_two_pow_add_eq]

theorem slot_ne {n h size : ℕ} (hn : n < h) (hh : h < n + size) :
    n % size ≠ h % size := by
  intro he
  have hd : size ∣ h - n := (Nat.modEq_iff_dvd' hn.le).mp he
  have := Nat.le_of_dvd (by omega) hd
  omega

end Vessel.Counter
