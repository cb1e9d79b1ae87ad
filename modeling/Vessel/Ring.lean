import Mathlib.Data.List.Basic
import Mathlib.Data.Nat.ModEq
import Mathlib.Logic.Function.Basic
import Mathlib.Tactic.Common

/-! A ring of `n` slots between two 32-bit indices that wrap around.  Both ends can grow: the
contents are the slots from `tail` up to `head`, and as long as there are at most `n` of them an
index stands for one element also across the wrap. -/
namespace Vessel

/-- The slots of a ring and its two indices. -/
structure Ring (α : Type*) where
  slot : ℕ → α
  head : BitVec 32
  tail : BitVec 32

namespace Ring

variable {α : Type*} (n : ℕ)

/-- The slot of an index. -/
def get (r : Ring α) (i : BitVec 32) : α := r.slot (i.toNat%n)

def put (r : Ring α) (i : BitVec 32) (x : α) : Ring α :=
  { r with slot := Function.update r.slot (i.toNat%n) x }

def size (r : Ring α) : ℕ := (r.head-r.tail).toNat

/-- The next `m` elements from index `i` on. -/
def span (r : Ring α) : BitVec 32 → ℕ → List α
  | _,0 => []
  | i,m+1 => r.get n i::r.span (i+1) m

def toList (r : Ring α) : List α := r.span n r.tail r.size

def pushBack (r : Ring α) (x : α) : Ring α := { r.put n r.head x with head := r.head+1 }

def popFront (r : Ring α) : Ring α := { r with tail := r.tail+1 }

def pushFront (r : Ring α) (x : α) : Ring α := { r.put n (r.tail-1) x with tail := r.tail-1 }

def popBack (r : Ring α) : Ring α := { r with head := r.head-1 }

variable {n} {r : Ring α} {i j : BitVec 32} {m : ℕ} {x : α}

@[simp] theorem length_span : (r.span n i m).length = m := by
  induction m generalizing i with
  | zero => rfl
  | succ m ih => rw [span,List.length_cons,ih]

@[simp] theorem length_toList : (r.toList n).length = r.size := length_span

theorem span_succ : r.span n i (m+1) = r.span n i m++[r.get n (i+BitVec.ofNat 32 m)] := by
  induction m generalizing i with
  | zero => simp [span]
  | succ m ih =>
    rw [span,ih,span,List.cons_append]
    have hi : i+1+BitVec.ofNat 32 m = i+BitVec.ofNat 32 (m+1) := by bv_omega
    rw [hi]

@[simp] theorem get_put_self : (r.put n i x).get n i = x := Function.update_self ..

theorem get_put_of_ne (hne : j.toNat%n ≠ i.toNat%n) : (r.put n i x).get n j = r.get n j :=
  Function.update_of_ne hne ..

theorem span_congr {r' : Ring α} (h : ∀ k < m, r'.get n (i+BitVec.ofNat 32 k) =
    r.get n (i+BitVec.ofNat 32 k)) : r'.span n i m = r.span n i m := by
  induction m with
  | zero => rfl
  | succ m ih => rw [span_succ,span_succ,ih fun k hk => h k (by omega),h m (by omega)]

theorem size_eq_zero_iff : r.size = 0 ↔ r.head = r.tail := by
  rw [size]
  constructor
  · intro h
    bv_omega
  · intro h
    rw [h,BitVec.sub_self]
    rfl

theorem toList_eq_nil (h : r.head = r.tail) : r.toList n = [] :=
  List.length_eq_zero_iff.mp (length_toList.trans (size_eq_zero_iff.mpr h))

theorem head_eq : r.head = r.tail+BitVec.ofNat 32 r.size := by
  rw [size,BitVec.ofNat_toNat,BitVec.setWidth_eq]
  bv_omega

/-- A number of slots that the wrap of the indices agrees with. -/
structure Fits (n : ℕ) : Prop where
  dvd : n ∣ 2^32
  lt : n < 2^32

section Wrap

variable (hn : Fits n)

include hn

theorem index_ne {d : ℕ} (hpos : 0 < d) (hd : d < n) :
    (i+BitVec.ofNat 32 d).toNat%n ≠ i.toNat%n := by
  have hmod : (i+BitVec.ofNat 32 d).toNat%n = (i.toNat+d)%n := by
    rw [BitVec.toNat_add,BitVec.toNat_ofNat,Nat.mod_mod_of_dvd _ hn.dvd,
      Nat.mod_eq_of_lt (Nat.lt_trans hd hn.lt)]
  rw [hmod]
  intro h
  have hdvd : n ∣ i.toNat+d-i.toNat := (Nat.modEq_iff_dvd' (Nat.le_add_right _ _)).mp h.symm
  rw [Nat.add_sub_cancel_left] at hdvd
  exact absurd (Nat.le_of_dvd hpos hdvd) (by omega)

theorem get_add_lap : r.get n (i+BitVec.ofNat 32 n) = r.get n i := by
  have hmod : (i+BitVec.ofNat 32 n).toNat%n = i.toNat%n := by
    rw [BitVec.toNat_add,BitVec.toNat_ofNat,Nat.mod_mod_of_dvd _ hn.dvd]
    rw [Nat.add_mod,Nat.mod_mod_of_dvd _ hn.dvd,Nat.mod_self,Nat.add_zero,Nat.mod_mod]
  rw [get,hmod,get]

omit hn in
theorem size_pushBack (h : r.size+1 < 2^32) : (r.pushBack n x).size = r.size+1 := by
  simp only [size,pushBack,put] at h ⊢
  bv_omega

theorem toList_pushBack (h : r.size < n) : (r.pushBack n x).toList n = r.toList n++[x] := by
  have hlt := hn.lt
  rw [toList,size_pushBack (by omega),span_succ,toList]
  congr 1
  · refine span_congr fun k hk => get_put_of_ne ?_
    have hj : r.head = r.tail+BitVec.ofNat 32 k+BitVec.ofNat 32 (r.size-k) := by
      rw [head_eq]
      bv_omega
    rw [hj]
    exact (index_ne hn (by omega) (by omega)).symm
  · have hhead : (r.pushBack n x).tail+BitVec.ofNat 32 r.size = r.head :=
      (head_eq (r:=r)).symm
    rw [hhead]
    exact congrArg (fun y => [y]) get_put_self

end Wrap

theorem size_popFront (h : 0 < r.size) : r.popFront.size+1 = r.size := by
  simp only [size,popFront] at h ⊢
  bv_omega

theorem toList_popFront (h : 0 < r.size) :
    r.toList n = r.get n r.tail::r.popFront.toList n := by
  rw [toList,← size_popFront h,span,toList]
  have hspan : r.popFront.span n (r.tail+1) r.popFront.size = r.span n (r.tail+1) r.popFront.size :=
    span_congr fun _ _ => rfl
  rw [← hspan]
  rfl

theorem size_popBack (h : 0 < r.size) : r.popBack.size+1 = r.size := by
  simp only [size,popBack] at h ⊢
  bv_omega

theorem toList_popBack (h : 0 < r.size) :
    r.toList n = r.popBack.toList n++[r.get n (r.head-1)] := by
  rw [toList,← size_popBack h,span_succ]
  have hlast : r.tail+BitVec.ofNat 32 r.popBack.size = r.head-1 := (head_eq (r:=r.popBack)).symm
  rw [hlast]
  have hspan : r.popBack.span n r.tail r.popBack.size = r.span n r.tail r.popBack.size :=
    span_congr fun _ _ => rfl
  rw [← hspan]
  rfl

section Wrap

variable (hn : Fits n)

include hn

omit hn in
theorem size_pushFront (h : r.size+1 < 2^32) : (r.pushFront n x).size = r.size+1 := by
  simp only [size,pushFront,put] at h ⊢
  bv_omega

theorem toList_pushFront (h : r.size < n) : (r.pushFront n x).toList n = x::r.toList n := by
  have hlt := hn.lt
  rw [toList,size_pushFront (by omega),span,toList]
  congr 1
  · exact get_put_self
  · have htail : (r.pushFront n x).tail+1 = r.tail := by
      simp only [pushFront]
      bv_omega
    rw [htail]
    refine span_congr fun k hk => get_put_of_ne ?_
    have hj : r.tail+BitVec.ofNat 32 k = r.tail-1+BitVec.ofNat 32 (k+1) := by bv_omega
    rw [hj]
    exact index_ne hn (by omega) (by omega)

/-- In a full ring the slot in front of the first element is that of the last one. -/
theorem get_before (h : r.size = n) : r.get n (r.tail-1) = r.get n (r.head-1) := by
  have hj : r.head-1 = r.tail-1+BitVec.ofNat 32 n := by
    rw [head_eq,h]
    bv_omega
  rw [hj,get_add_lap hn]

theorem toList_pushFront_full (hpos : 0 < n) (h : r.size = n) :
    (r.pushFront n x).popBack.toList n = x::r.popBack.toList n ∧
      r.toList n = r.popBack.toList n++[r.get n (r.tail-1)] := by
  have hsize := size_popBack (r:=r) (by omega)
  constructor
  · exact toList_pushFront (r:=r.popBack) hn (by omega)
  · rw [get_before hn h]
    exact toList_popBack (by omega)

end Wrap

end Ring
end Vessel
