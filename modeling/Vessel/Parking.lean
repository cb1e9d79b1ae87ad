import Mathlib.Data.List.Nodup
import Mathlib.Data.List.Perm.Basic
import Mathlib.Tactic.Common

/-! Threads that wait in a queue until another thread takes them off it and, some time later, makes
them ready.  No parked thread is lost on the way, and none is woken twice. -/
namespace Vessel

/-- The parked threads are those in the queue and those that another thread is about to wake;
`waker` gives that thread. -/
structure Parking {ι : Type*} (queue : List ι) (parked : ι → Prop) (wakes : ι → List ι)
    (waker : ι → Option ι) : Prop where
  nodup : queue.Nodup
  waiting : ∀ i,i ∈ queue ↔ parked i ∧ waker i = none
  wakes_nodup : ∀ j,(wakes j).Nodup
  woken : ∀ i j,i ∈ wakes j ↔ parked i ∧ waker i = some j

namespace Parking

variable {ι : Type*} {queue queue' : List ι} {parked parked' : ι → Prop} {wakes wakes' : ι → List ι}
  {waker : ι → Option ι} {i th : ι} {ths : List ι}

theorem empty (hp : ∀ i,¬parked i) (hw : ∀ i,wakes i = []) :
    Parking [] parked wakes fun _ => none where
  nodup := List.nodup_nil
  waiting := by simp [hp]
  wakes_nodup := by simp [hw]
  woken := by simp [hw]

theorem congr (h : Parking queue parked wakes waker) (hp : ∀ k,parked' k ↔ parked k)
    (hw : ∀ k,wakes' k = wakes k) : Parking queue parked' wakes' waker where
  nodup := h.nodup
  waiting := by simpa only [hp] using h.waiting
  wakes_nodup := by simpa only [hw] using h.wakes_nodup
  woken := by simpa only [hp,hw] using h.woken

theorem kept (h : Parking queue parked wakes waker) (hi : parked i) :
    i ∈ queue ∨ ∃ j,i ∈ wakes j := by
  cases hw : waker i with
  | none => exact .inl ((h.waiting i).mpr ⟨hi,hw⟩)
  | some j => exact .inr ⟨j,(h.woken i j).mpr ⟨hi,hw⟩⟩

variable [DecidableEq ι]

theorem park (h : Parking queue parked wakes waker) (hi : ¬parked i)
    (hq : queue'.Perm (i::queue)) (hp : ∀ k,parked' k ↔ k = i ∨ parked k)
    (hw : ∀ k,wakes' k = wakes k) :
    Parking queue' parked' wakes' (Function.update waker i none) where
  nodup := by
    have hnot : i ∉ queue := fun hmem => hi ((h.waiting i).mp hmem).1
    exact hq.nodup_iff.mpr (List.nodup_cons.mpr ⟨hnot,h.nodup⟩)
  waiting k := by
    rw [hq.mem_iff,List.mem_cons,h.waiting,hp]
    by_cases hk : k = i
    · simp [hk]
    · simp [hk]
  wakes_nodup := by simpa only [hw] using h.wakes_nodup
  woken k j := by
    rw [hw,h.woken,hp]
    by_cases hk : k = i
    · simp [hk,hi]
    · simp [hk]

theorem take (h : Parking queue parked wakes waker) (hi : wakes i = [])
    (hq : queue.Perm (ths++queue')) (hp : ∀ k,parked' k ↔ parked k)
    (hw : ∀ k,wakes' k = if k = i then ths else wakes k) :
    Parking queue' parked' wakes' fun k => if k ∈ ths then some i else waker k := by
  obtain ⟨hths,hqueue,hdisj⟩ := List.nodup_append.mp (hq.nodup_iff.mp h.nodup)
  have hwait (k : ι) : k ∈ ths ∨ k ∈ queue' ↔ parked k ∧ waker k = none := by
    rw [← List.mem_append,← hq.mem_iff,h.waiting]
  refine ⟨hqueue,?_,?_,?_⟩
  · intro k
    rw [hp]
    by_cases hk : k ∈ ths
    · simp only [hk,if_true,reduceCtorEq,and_false,iff_false]
      exact fun hk' => hdisj k hk k hk' rfl
    · rw [if_neg hk,← hwait]
      simp [hk]
  · intro j
    rw [hw]
    split_ifs
    · exact hths
    · exact h.wakes_nodup j
  · intro k j
    rw [hw,hp]
    have hnone : k ∉ wakes i := by simp [hi]
    have hkj := h.woken k j
    have hki := h.woken k i
    have hk' := hwait k
    by_cases hk : k ∈ ths
    · -- it was in the queue, so nobody was to wake it
      obtain ⟨hpk,hwk⟩ := hk'.mp (.inl hk)
      by_cases hj : j = i
      · simp [hj,hk,hpk]
      · simp [hj,hk,hkj,hwk,Ne.symm hj]
    · by_cases hj : j = i
      · subst hj
        simpa [hk] using fun hpk hwk => hnone (hki.mpr ⟨hpk,hwk⟩)
      · simp [hj,hk,hkj]

theorem ready (h : Parking queue parked wakes waker) (hi : wakes i = th::ths)
    (hp : ∀ k,parked' k ↔ k ≠ th ∧ parked k)
    (hw : ∀ k,wakes' k = if k = i then ths else wakes k) :
    Parking queue parked' wakes' waker := by
  obtain ⟨hth,hths⟩ := List.nodup_cons.mp (hi ▸ h.wakes_nodup i)
  obtain ⟨hpth,hwth⟩ := (h.woken th i).mp (by simp [hi])
  refine ⟨h.nodup,?_,?_,?_⟩
  · intro k
    rw [h.waiting,hp]
    by_cases hk : k = th
    · simp [hk,hwth]
    · simp [hk]
  · intro j
    rw [hw]
    split_ifs
    · exact hths
    · exact h.wakes_nodup j
  · intro k j
    rw [hw,hp]
    have hkj := h.woken k j
    by_cases hj : j = i
    · subst hj
      rw [if_pos rfl]
      by_cases hk : k = th
      · simp [hk,hth]
      · rw [hi,List.mem_cons] at hkj
        simpa [hk] using hkj
    · rw [if_neg hj,hkj]
      by_cases hk : k = th
      · simp [hk,hwth,Ne.symm hj]
      · simp [hk]

end Parking
end Vessel
