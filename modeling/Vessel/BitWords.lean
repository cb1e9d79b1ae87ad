import Vessel.Bitmap
import Mathlib.Data.BitVec

/-! Bitmaps as arrays of machine words (`base/bitmap.h`). -/
namespace Vessel

abbrev BitWords := ℕ → BitVec 64

namespace BitWords

/-- `BITMAP_LONG_SIZE`. -/
def longSize (nbits : ℕ) : ℕ := (nbits+63)/64

/-- What `bitmap_test` reads. -/
def bits (w : BitWords) : Bitmap := fun i => (w (i/64)).getLsbD (i%64)

/-- `bitmap_init`. -/
def init (w : BitWords) (nbits : ℕ) (state : Bool) : BitWords :=
  fun k => if k < longSize nbits then (if state then BitVec.allOnes 64 else 0) else w k

/-- `bitmap_xor`. -/
def xor (dst src₁ src₂ : BitWords) (nbits : ℕ) : BitWords :=
  fun k => if k < longSize nbits then src₁ k ^^^ src₂ k else dst k

variable {w w₁ w₂ : BitWords} {nbits i : ℕ}

theorem bits_init {state : Bool} :
    (w.init nbits state).bits i = if i < 64*longSize nbits then state else w.bits i := by
  have hword : i/64 < longSize nbits ↔ i < 64*longSize nbits := by omega
  have hbit : i%64 < 64 := Nat.mod_lt _ (by decide)
  rw [bits,init]
  by_cases h : i/64 < longSize nbits
  · rw [if_pos h,if_pos (hword.mp h)]
    cases state with
    | false => exact BitVec.getLsbD_zero
    | true =>
      rw [if_pos rfl,BitVec.getLsbD_allOnes]
      exact decide_eq_true hbit
  · rw [if_neg h,if_neg (mt hword.mpr h),bits]

theorem bits_xor : (w.xor w₁ w₂ nbits).bits i =
    if i < 64*longSize nbits then w₁.bits i ^^ w₂.bits i else w.bits i := by
  have hword : i/64 < longSize nbits ↔ i < 64*longSize nbits := by omega
  rw [bits,xor]
  by_cases h : i/64 < longSize nbits
  · rw [if_pos h,if_pos (hword.mp h),BitVec.getLsbD_xor,bits,bits]
  · rw [if_neg h,if_neg (mt hword.mpr h),bits]

theorem lt_longSize (h : i < nbits) : i < 64*longSize nbits := by
  rw [longSize]
  omega

end BitWords
end Vessel
