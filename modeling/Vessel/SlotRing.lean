import Mathlib.Logic.Function.Iterate
import Mathlib.Tactic.Common

/-! A ring of `n` slots with a writing and a reading position.  One slot always stays free: the
ring is full when the writing position would catch up with the reading one, and a slot keeps its
old element after it has been read. -/
namespace Vessel

open Function

structure SlotRing (n : ℕ) (α : Type*) where
  slot : Fin n → α
  head : Fin n
  tail : Fin n

namespace SlotRing

variable {n : ℕ} {α β : Type*}

/-- The position after `i`; the last one is followed by the first. -/
def next (i : Fin n) : Fin n := if h : i.val+1 < n then ⟨i.val+1,h⟩ else ⟨0,i.pos⟩

def Full (r : SlotRing n α) : Prop := next r.head = r.tail

def Empty (r : SlotRing n α) : Prop := r.head = r.tail

instance (r : SlotRing n α) : Decidable r.Full := inferInstanceAs (Decidable (_ = _))

instance (r : SlotRing n α) : Decidable r.Empty := inferInstanceAs (Decidable (_ = _))

def push (r : SlotRing n α) (x : α) : SlotRing n α where
  slot := update r.slot r.head x
  head := next r.head
  tail := r.tail

def pop (r : SlotRing n α) : SlotRing n α := { r with tail := next r.tail }

/-- Write the slot that the next element is put in, which stays unread. -/
def setNext (r : SlotRing n α) (x : α) : SlotRing n α :=
  { r with slot := update r.slot r.head x }

def advance (r : SlotRing n α) : SlotRing n α := { r with head := next r.head }

/-- Change the element that is read next. -/
def setFront (r : SlotRing n α) (x : α) : SlotRing n α :=
  { r with slot := update r.slot r.tail x }

def size (r : SlotRing n α) : ℕ :=
  if r.tail ≤ r.head then r.head-r.tail else r.head+n-r.tail

/-- The elements of `m` slots from `i` on. -/
def span (slot : Fin n → α) : Fin n → ℕ → List α
  | _,0 => []
  | i,m+1 => slot i::span slot (next i) m

/-- The elements that have been written and not read, oldest first. -/
def toList (r : SlotRing n α) : List α := span r.slot r.tail r.size

variable {r : SlotRing n α} {slot slot' : Fin n → α} {i : Fin n} {m : ℕ} {x : α}

theorem val_next (i : Fin n) : (next i).val = if i.val+1 < n then i.val+1 else 0 := by
  unfold next
  split <;> rfl

theorem next_injective : Function.Injective (next (n:=n)) := by
  intro i j h
  have h := congrArg Fin.val h
  have := i.isLt
  have := j.isLt
  rw [val_next,val_next] at h
  apply Fin.ext
  split_ifs at h <;> omega

theorem val_iterate_next (i : Fin n) (hm : m < n) :
    (next^[m] i).val = if i.val+m < n then i.val+m else i.val+m-n := by
  induction m with
  | zero => simp
  | succ m ih =>
    have hi := i.isLt
    rw [iterate_succ_apply',val_next,ih (by omega)]
    split_ifs <;> omega

theorem span_succ : span slot i (m+1) = span slot i m++[slot (next^[m] i)] := by
  induction m generalizing i with
  | zero => rfl
  | succ m ih =>
    rw [span,ih]
    rfl

theorem length_span : (span slot i m).length = m := by
  induction m generalizing i with
  | zero => rfl
  | succ m ih => rw [span,List.length_cons,ih]

theorem span_congr (h : ∀ k < m, slot (next^[k] i) = slot' (next^[k] i)) :
    span slot i m = span slot' i m := by
  induction m generalizing i with
  | zero => rfl
  | succ m ih =>
    have h0 : slot i = slot' i := h 0 (by omega)
    rw [span,span,h0]
    congr 1
    exact ih fun k hk => h (k+1) (by omega)

theorem exists_of_mem_span (h : x ∈ span slot i m) : ∃ k < m, slot (next^[k] i) = x := by
  induction m generalizing i with
  | zero => exact absurd h List.not_mem_nil
  | succ m ih =>
    rcases List.mem_cons.mp h with rfl | h
    · exact ⟨0,by omega,rfl⟩
    · obtain ⟨k,hk,hx⟩ := ih h
      exact ⟨k+1,by omega,hx⟩

theorem size_lt (r : SlotRing n α) : r.size < n := by
  have := r.head.isLt
  have := r.tail.isLt
  simp only [size,Fin.le_def]
  split <;> omega

theorem iterate_next_tail (r : SlotRing n α) : next^[r.size] r.tail = r.head := by
  have := r.head.isLt
  have := r.tail.isLt
  apply Fin.ext
  rw [val_iterate_next r.tail r.size_lt]
  simp only [size,Fin.le_def]
  split_ifs <;> omega

theorem iterate_next_ne_head (hm : m < r.size) : next^[m] r.tail ≠ r.head := by
  have := r.size_lt
  have := r.tail.isLt
  rw [← r.iterate_next_tail]
  intro h
  have h := congrArg Fin.val h
  rw [val_iterate_next r.tail (by omega),val_iterate_next r.tail (by omega)] at h
  split_ifs at h <;> omega

theorem exists_of_mem_toList (h : x ∈ r.toList) : ∃ i, i ≠ r.head ∧ r.slot i = x := by
  obtain ⟨k,hk,hx⟩ := exists_of_mem_span h
  exact ⟨_,iterate_next_ne_head hk,hx⟩

theorem length_toList (r : SlotRing n α) : r.toList.length = r.size := length_span

theorem iterate_next_ne_tail (hm : m+1 < n) : next^[m+1] i ≠ i := by
  have := i.isLt
  intro h
  have h := congrArg Fin.val h
  rw [val_iterate_next i hm] at h
  split_ifs at h <;> omega

theorem size_push (h : ¬r.Full) : (r.push x).size = r.size+1 := by
  have := r.head.isLt
  have := r.tail.isLt
  have h : (next r.head).val ≠ r.tail := fun heq => h (Fin.ext heq)
  rw [val_next] at h
  simp only [size,push,Fin.le_def,val_next]
  split_ifs at h ⊢ <;> omega

theorem size_pop (h : ¬r.Empty) : r.size = r.pop.size+1 := by
  have := r.head.isLt
  have := r.tail.isLt
  have h : r.head.val ≠ r.tail := fun heq => h (Fin.ext heq)
  simp only [size,pop,Fin.le_def,val_next]
  split_ifs <;> omega

@[simp] theorem size_setFront : (r.setFront x).size = r.size := rfl

theorem toList_setNext : (r.setNext x).toList = r.toList := by
  apply span_congr
  intro k hk
  exact update_of_ne (iterate_next_ne_head hk) x r.slot

theorem toList_advance (h : ¬r.Full) : r.advance.toList = r.toList++[r.slot r.head] := by
  have hsize : r.advance.size = r.size+1 := by
    have := size_push (x:=r.slot r.head) h
    rwa [push,update_eq_self] at this
  rw [toList,hsize]
  change span r.slot r.tail (r.size+1) = _
  rw [span_succ,iterate_next_tail]
  rfl

theorem toList_push (h : ¬r.Full) : (r.push x).toList = r.toList++[x] := by
  have hfull : ¬(r.setNext x).Full := h
  have hslot : (r.setNext x).slot r.head = x := update_self ..
  change (r.setNext x).advance.toList = _
  rw [toList_advance hfull,toList_setNext]
  exact congrArg (r.toList++[·]) hslot

theorem toList_eq_cons (h : ¬r.Empty) : r.toList = r.slot r.tail::r.pop.toList := by
  rw [toList,size_pop h]
  rfl

/-- The slot that is read next is none of the others that hold elements. -/
theorem toList_pop_setFront (h : ¬r.Empty) : (r.setFront x).pop.toList = r.pop.toList := by
  have hlt := r.size_lt
  have hsize := size_pop h
  apply span_congr
  intro k hk
  have hk : k < r.pop.size := hk
  exact update_of_ne (iterate_next_ne_tail (m:=k) (by omega)) x r.slot

theorem toList_setFront (h : ¬r.Empty) : (r.setFront x).toList = x::r.pop.toList := by
  rw [toList_eq_cons (r:=r.setFront x) h,toList_pop_setFront h]
  congr 1
  exact update_self r.tail x r.slot

theorem toList_of_empty (h : r.Empty) : r.toList = [] := by
  have hsize : r.size = 0 := by
    have h : r.head = r.tail := h
    simp [size,h]
  rw [toList,hsize]
  rfl

theorem forall_slot_push {P : α → Prop} (hx : P x) (h : ∀ i,P (r.slot i)) (i : Fin n) :
    P ((r.push x).slot i) :=
  (forall_update_iff r.slot fun _ => P).mpr ⟨hx,fun j _ => h j⟩ i

theorem forall_slot_setFront {P : α → Prop} (hx : P x) (h : ∀ i,P (r.slot i)) (i : Fin n) :
    P ((r.setFront x).slot i) :=
  (forall_update_iff r.slot fun _ => P).mpr ⟨hx,fun j _ => h j⟩ i

end SlotRing
end Vessel
