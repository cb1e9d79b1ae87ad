import Mathlib.Data.List.Basic
import Mathlib.Data.List.Nodup
import Mathlib.Data.List.Perm.Subperm
import Mathlib.Logic.Function.Basic
import Mathlib.Tactic.Common

/-! Bitmaps (`base/bitmap.h`) as the bits they hold. -/
namespace Vessel

open List

abbrev Bitmap := ℕ → Bool

namespace Bitmap

def empty : Bitmap := fun _ => false

def set (b : Bitmap) (i : ℕ) : Bitmap := Function.update b i true

def clear (b : Bitmap) (i : ℕ) : Bitmap := Function.update b i false

/-- The positions `bitmap_for_each_set` visits, in order. -/
def setBits (b : Bitmap) (n : ℕ) : List ℕ := (List.range n).filter b

def popcount (b : Bitmap) (n : ℕ) : ℕ := (b.setBits n).length

/-- `bitmap_find_next_set`: the first set bit from `pos` on, or `n`. -/
def findNextSet (b : Bitmap) (n pos : ℕ) : ℕ :=
  ((List.range' pos (n-pos)).find? fun i => b i).getD n

/-- `bitmap_find_next_cleared`: the first cleared bit from `pos` on, or `n`. -/
def findNextCleared (b : Bitmap) (n pos : ℕ) : ℕ :=
  ((List.range' pos (n-pos)).find? fun i => !b i).getD n

def xor (b b' : Bitmap) : Bitmap := fun i => b i ^^ b' i

/-- The positions `bitmap_for_each_cleared` visits, in order. -/
def clearedBits (b : Bitmap) (n : ℕ) : List ℕ := (List.range n).filter fun i => !b i

def setRange (b : Bitmap) (start : ℕ) : ℕ → Bitmap
  | 0 => b
  | n+1 => (b.setRange start n).set (start+n)

def clearRange (b : Bitmap) (start : ℕ) : ℕ → Bitmap
  | 0 => b
  | n+1 => (b.clearRange start n).clear (start+n)

/-- No bit of the range is set. -/
def Clear (b : Bitmap) (start n : ℕ) : Prop := ∀ i, start ≤ i → i < start+n → b i = false

/-- The lowest run of `num` cleared bits below `n`. -/
structure FirstRun (b : Bitmap) (n num start : ℕ) : Prop where
  inside : start+num ≤ n
  clear : b.Clear start num
  least : ∀ s < start, ¬b.Clear s num

variable {b : Bitmap} {n i j : ℕ}

@[simp] theorem empty_apply : empty i = false := rfl
@[simp] theorem set_self : b.set i i = true := by simp [set]
@[simp] theorem clear_self : b.clear i i = false := by simp [clear]
theorem set_of_ne (h : j ≠ i) : b.set i j = b j := by simp [set,h]
theorem clear_of_ne (h : j ≠ i) : b.clear i j = b j := by simp [clear,h]

theorem set_eq_true : b.set i j = true ↔ j = i ∨ b j = true := by
  by_cases h : j = i
  · subst h
    simp
  · simp [set_of_ne h,h]

theorem clear_eq_true : b.clear i j = true ↔ j ≠ i ∧ b j = true := by
  by_cases h : j = i
  · subst h
    simp
  · simp [clear_of_ne h,h]

theorem mem_setBits : i ∈ b.setBits n ↔ i < n ∧ b i = true := by simp [setBits]

theorem nodup_setBits : (b.setBits n).Nodup := nodup_range.filter _

theorem findNextSet_spec (b : Bitmap) (n pos : ℕ) :
    b.findNextSet n pos = n ∨
      pos ≤ b.findNextSet n pos ∧ b.findNextSet n pos < n ∧ b (b.findNextSet n pos) = true := by
  unfold findNextSet
  cases h : (List.range' pos (n-pos)).find? fun i => b i with
  | none => exact Or.inl rfl
  | some i =>
    have hb := find?_some h
    have hm := mem_of_find?_eq_some h
    rw [mem_range'_1] at hm
    exact Or.inr ⟨hm.1,by simp; omega,hb⟩

theorem findNextCleared_spec (b : Bitmap) (n pos : ℕ) :
    b.findNextCleared n pos = n ∨ pos ≤ b.findNextCleared n pos ∧
      b.findNextCleared n pos < n ∧ b (b.findNextCleared n pos) = false := by
  have hnot : b.findNextCleared n pos = findNextSet (fun i => !b i) n pos := rfl
  rw [hnot]
  rcases findNextSet_spec (fun i => !b i) n pos with h | ⟨hlo,hhi,hset⟩
  · exact Or.inl h
  · exact Or.inr ⟨hlo,hhi,by simpa using hset⟩

theorem findNextCleared_le {pos : ℕ} (hpos : pos ≤ i) (hi : i < n) (hb : b i = false) :
    b.findNextCleared n pos ≤ i := by
  unfold findNextCleared
  cases h : (List.range' pos (n-pos)).find? fun i => !b i with
  | none =>
    have hmem : i ∈ List.range' pos (n-pos) := mem_range'_1.mpr (by omega)
    exact absurd (by simp [hb]) (find?_eq_none.mp h i hmem)
  | some j =>
    rw [Option.getD_some]
    by_contra hlt
    -- the bits before the one that was found are set
    obtain ⟨-,l₁,l₂,heq,hset⟩ := find?_eq_some_iff_append.mp h
    have hpair : (List.range' pos (n-pos)).Pairwise (· < ·) := pairwise_lt_range' ..
    have hmem : i ∈ List.range' pos (n-pos) := mem_range'_1.mpr (by omega)
    rw [heq] at hpair hmem
    rcases mem_append.mp hmem with hmem | hmem
    · simpa [hb] using hset i hmem
    rcases mem_cons.mp hmem with rfl | hmem
    · omega
    · have := (pairwise_cons.mp (pairwise_append.mp hpair).2.1).1 i hmem
      omega

theorem popcount_set (hi : i < n) (hb : b i = false) :
    (b.set i).popcount n = b.popcount n+1 := by
  have hperm : ((b.set i).setBits n).Perm (i::b.setBits n) := by
    refine (perm_ext_iff_of_nodup nodup_setBits ?_).mpr fun j => ?_
    · refine nodup_cons.mpr ⟨fun hmem => ?_,nodup_setBits⟩
      rw [mem_setBits,hb] at hmem
      exact absurd hmem.2 (by simp)
    · rw [mem_cons,mem_setBits,mem_setBits,set_eq_true]
      constructor
      · rintro ⟨hj,rfl | hset⟩
        · exact Or.inl rfl
        · exact Or.inr ⟨hj,hset⟩
      · rintro (rfl | ⟨hj,hset⟩)
        · exact ⟨hi,Or.inl rfl⟩
        · exact ⟨hj,Or.inr hset⟩
  rw [popcount,hperm.length_eq,length_cons,popcount]

theorem setRange_eq_true {start : ℕ} :
    b.setRange start n i = true ↔ start ≤ i ∧ i < start+n ∨ b i = true := by
  induction n with
  | zero =>
    rw [setRange]
    constructor
    · exact Or.inr
    · rintro (h | h)
      · omega
      · exact h
  | succ n ih =>
    rw [setRange,set_eq_true,ih]
    by_cases h : i = start+n
    · simp [h]
    · have hlt : i < start+n ↔ i < start+(n+1) := by omega
      simp [h,hlt]

theorem clearRange_eq_true {start : ℕ} :
    b.clearRange start n i = true ↔ ¬(start ≤ i ∧ i < start+n) ∧ b i = true := by
  induction n with
  | zero =>
    rw [clearRange]
    constructor
    · exact fun h => ⟨by omega,h⟩
    · exact fun h => h.2
  | succ n ih =>
    rw [clearRange,clear_eq_true,ih]
    by_cases h : i = start+n
    · simp [h]
    · have hlt : i < start+n ↔ i < start+(n+1) := by omega
      simp [h,hlt]

theorem Clear.le_popcount {start num : ℕ} (h : b.Clear start num) (hn : start+num ≤ n) :
    num ≤ n - b.popcount n := by
  have hlen : (b.setBits n).length + (b.clearedBits n).length = n := by
    have := length_eq_length_filter_add b (l:=List.range n)
    simpa [setBits,clearedBits] using this.symm
  have hsub : List.range' start num ⊆ b.clearedBits n := by
    intro i hi
    rw [mem_range'_1] at hi
    simp only [clearedBits,mem_filter,mem_range,Bool.not_eq_true']
    exact ⟨by omega,h i hi.1 hi.2⟩
  have hnodup : (List.range' start num).Nodup := nodup_range' ..
  have hle := (hnodup.subperm hsub).length_le
  rw [length_range'] at hle
  rw [popcount]
  omega

end Bitmap
end Vessel
