import Vessel.RunQueueConserve

/-! What `steal_work` moves, and in which order the threads stand then. -/
namespace Vessel

open List
namespace RunQueue
namespace Kthread

variable {readyTsc : ℕ → ℕ} {k l r : Kthread} {th nr i : ℕ}

/-- The order of the merge: the first list goes first at equal times. -/
def byTsc (readyTsc : ℕ → ℕ) (a b : ℕ) : Bool := readyTsc a ≤ readyTsc b

/-- The threads are in the order in which they became ready. -/
def Sorted (readyTsc : ℕ → ℕ) (ths : List ℕ) : Prop :=
  ths.Pairwise fun a b => readyTsc a ≤ readyTsc b

/-- Threads wait in the overflow list only behind a full ring. -/
def Packed (k : Kthread) : Prop := k.rqOverflow ≠ [] → k.rq.size = runtimeRqSize

theorem Sorted.merge {as bs : List ℕ} (ha : Sorted readyTsc as) (hb : Sorted readyTsc bs) :
    Sorted readyTsc (as.merge bs (byTsc readyTsc)) := by
  have hle : ∀ a b,readyTsc a ≤ readyTsc b ↔ byTsc readyTsc a b = true := by simp [byTsc]
  simp only [Sorted,hle] at ha hb ⊢
  refine pairwise_merge ?_ ?_ as bs ha hb
  · intro a b c hab hbc
    rw [← hle] at *
    omega
  · intro a b
    rw [Bool.or_eq_true,← hle,← hle]
    omega

/-! ### Taking threads -/

theorem length_drainThreadsLoop {rq : Ring ℕ} (ths : List ℕ) (h : rq.size ≤ runtimeRqSize) :
    (drainThreadsLoop nr rq ths).1.length = min nr (rq.toList runtimeRqSize++ths).length := by
  induction nr generalizing rq ths with
  | zero => simp [drainThreadsLoop]
  | succ nr ih =>
    unfold drainThreadsLoop
    split
    · next hlt =>
      have hpos := (wrapsLt_of_pos h).mp hlt
      have hsize := Ring.size_popFront hpos
      simp only [length_cons,ih ths (by omega : rq.popFront.size ≤ runtimeRqSize),
        length_append,Ring.length_toList]
      omega
    · next hge =>
      have hempty : rq.size = 0 := by
        by_contra hne
        exact hge ((wrapsLt_of_pos h).mpr (Nat.pos_of_ne_zero hne))
      cases ths with
      | nil => simp [hempty]
      | cons th ths =>
        simp only [length_cons,ih ths h,length_append,Ring.length_toList]
        omega

variable (nr) in
theorem drainThreadsLoop_eq {rq : Ring ℕ} (ths : List ℕ) (h : rq.size ≤ runtimeRqSize) :
    (drainThreadsLoop nr rq ths).1 = (rq.toList runtimeRqSize++ths).take nr ∧
      (drainThreadsLoop nr rq ths).2.1.toList runtimeRqSize++(drainThreadsLoop nr rq ths).2.2 =
        (rq.toList runtimeRqSize++ths).drop nr := by
  apply append_inj
  · rw [take_append_drop]
    exact (drainThreadsLoop_spec nr ths h).1
  · rw [length_drainThreadsLoop ths h,length_take]

/-! ### The merge -/

variable (th) in
theorem addTail_packed (hsize : k.rq.size ≤ runtimeRqSize) (hp : k.Packed) :
    (k.addTail th).threads = k.threads++[th] ∧ (k.addTail th).Packed := by
  rw [addTail]
  split
  · next hfull => exact ⟨(append_assoc ..).symm,fun _ => Nat.le_antisymm hsize hfull⟩
  · next hroom =>
    have hnil : k.rqOverflow = [] := by
      by_contra hne
      exact hroom (hp hne).ge
    refine ⟨?_,fun hne => absurd hnil hne⟩
    simp only [threads,hnil,append_nil]
    exact Ring.toList_pushBack rq_fits (by omega)

variable (readyTsc) in
theorem mergeLoop_packed (rs ls : List ℕ) (hi : i = ls.length+rs.length)
    (hsize : k.rq.size ≤ runtimeRqSize) (hp : k.Packed) :
    (mergeLoop readyTsc i rs ls k).threads = k.threads++ls.merge rs (byTsc readyTsc) ∧
      (mergeLoop readyTsc i rs ls k).Packed := by
  induction i generalizing rs ls k with
  | zero =>
    obtain ⟨rfl,rfl⟩ : rs = [] ∧ ls = [] := by
      constructor <;> apply length_eq_zero_iff.mp <;> omega
    exact ⟨by simp [mergeLoop],hp⟩
  | succ i ih =>
    -- one more thread, and the rest by induction
    have hnext : ∀ {th rs' ls'},i = ls'.length+rs'.length →
        ls.merge rs (byTsc readyTsc) = th::ls'.merge rs' (byTsc readyTsc) →
        (mergeLoop readyTsc i rs' ls' (k.addTail th)).threads =
            k.threads++ls.merge rs (byTsc readyTsc) ∧
          (mergeLoop readyTsc i rs' ls' (k.addTail th)).Packed := by
      intro th rs' ls' hi' hmerge
      obtain ⟨hthreads,hpacked⟩ := addTail_packed th hsize hp
      obtain ⟨hrest,hpacked'⟩ := ih rs' ls' hi' (addTail_gains th hsize).size hpacked
      refine ⟨?_,hpacked'⟩
      rw [hrest,hthreads,hmerge,append_assoc,singleton_append]
    cases rs with
    | nil =>
      cases ls with
      | nil => simp at hi
      | cons l ls =>
        simp only [length_cons,length_nil] at hi
        exact hnext (by simp; omega) (by simp)
    | cons r rs =>
      cases ls with
      | nil =>
        simp only [length_cons,length_nil] at hi
        exact hnext (by simp; omega) (by simp)
      | cons l ls =>
        simp only [length_cons] at hi
        rw [mergeLoop]
        split
        · next hlt => exact hnext (by simp; omega) (by simp [byTsc,hlt])
        · next hge => exact hnext (by simp; omega) (by simp [byTsc,Nat.not_lt.mp hge])

variable (readyTsc nr) in
theorem mergeRunqueues_merges (lsize : ℕ) (hl : l.rq.size ≤ runtimeRqSize)
    (hr : r.rq.size ≤ runtimeRqSize) (hlsize : l.threads.length ≤ lsize) :
    (mergeRunqueues readyTsc l lsize r nr).1.threads =
        l.threads.merge (r.threads.take nr) (byTsc readyTsc) ∧
      (mergeRunqueues readyTsc l lsize r nr).1.Packed ∧
      (mergeRunqueues readyTsc l lsize r nr).2.threads = r.threads.drop nr := by
  obtain ⟨htaken,hleft⟩ := drainThreadsLoop_eq nr r.rqOverflow hr
  obtain ⟨hown,hrest⟩ := drainThreadsLoop_eq lsize l.rqOverflow hl
  change _ = l.threads.take lsize at hown
  change _ = l.threads.drop lsize at hrest
  rw [take_of_length_le hlsize] at hown
  rw [drop_of_length_le hlsize,append_eq_nil_iff] at hrest
  have hbase : threads (resetRq { l with rqOverflow := [] }) = [] := by
    rw [threads,Ring.toList_eq_nil rfl]
    rfl
  have hstart : Packed (resetRq { l with rqOverflow := [] }) := fun hne => absurd rfl hne
  obtain ⟨hthreads,hpacked⟩ := mergeLoop_packed readyTsc (r.threads.take nr) l.threads
    rfl size_resetRq hstart
  rw [hbase,nil_append] at hthreads
  simp only [mergeRunqueues,hown,hrest.2,htaken]
  exact ⟨hthreads,hpacked,hleft⟩

/-! ### A steal -/

/-- The queue as `steal_work` finds it: the published count has no thread that is not there. -/
structure Counted (k : Kthread) : Prop where
  size : k.rq.size ≤ runtimeRqSize
  published : (k.qHead-k.qTail).toNat ≤ k.threads.length

/-- `steal_work` comes to `merge_runqueues`. -/
def Steals (l r : Kthread) (pending : Bool) : Prop :=
  (r.rq.tail ≠ r.rq.head ∨ pending = true) ∧ numToSteal l r ≠ 0

/-- Half of the difference of the published counts, rounded up, but at most a ring. -/
def half (l r : Kthread) : ℕ :=
  min (((r.qHead-r.qTail).toNat-(l.qHead-l.qTail).toNat+1)/2) runtimeRqSize

theorem numToSteal_eq (h : numToSteal l r ≠ 0) : numToSteal l r = half l r := by
  unfold numToSteal at h ⊢
  unfold half
  dsimp only at h ⊢
  generalize l.qHead-l.qTail = a at h ⊢
  generalize r.qHead-r.qTail = b at h ⊢
  by_cases hlt : a < b
  swap
  · rw [if_neg hlt] at h
    contradiction
  rw [if_pos hlt] at h ⊢
  have hsub : (b-a).toNat = b.toNat-a.toNat :=
    BitVec.toNat_sub_of_le (BitVec.le_of_lt hlt)
  have hdiv : ((b-a+2-1)/2).toNat = ((b-a).toNat+1)%2^32/2 := by
    generalize b-a = c
    have hone : c+2-1 = c+1 := by bv_omega
    rw [hone,BitVec.toNat_udiv,BitVec.toNat_add]
    rfl
  rw [hdiv] at h ⊢
  -- a difference of 2^32-1 would give nothing to steal
  have hfits : (b-a).toNat+1 < 2^32 := by
    by_contra hge
    have hfull : (b-a).toNat+1 = 2^32 := by omega
    rw [hfull] at h
    simp at h
  rw [Nat.mod_eq_of_lt hfits,hsub]

theorem Steals.eq {pending : Bool} {p : Kthread × Kthread} (h : Steals l r pending)
    (hs : stealWork readyTsc l r pending = some p) :
    p = mergeRunqueues readyTsc l (l.qHead-l.qTail).toNat r (half l r) := by
  obtain ⟨havail,hnum⟩ := h
  obtain ⟨-,hs⟩ := Option.ite_none_left_eq_some.mp hs
  rw [if_neg (by
    rintro ⟨hempty,hquiet⟩
    rcases havail with hne | hpending
    · exact hne hempty
    · rw [hquiet] at hpending
      contradiction),if_neg hnum,numToSteal_eq hnum] at hs
  exact (Option.some.inj hs).symm

theorem stealWork_of_not_steals {pending : Bool} {p : Kthread × Kthread} (h : ¬Steals l r pending)
    (hs : stealWork readyTsc l r pending = some p) : p = (l,r) := by
  obtain ⟨-,hs⟩ := Option.ite_none_left_eq_some.mp hs
  split_ifs at hs with hquiet hnum
  · exact (Option.some.inj hs).symm
  · exact (Option.some.inj hs).symm
  · refine absurd ⟨?_,hnum⟩ h
    by_contra hno
    rw [not_or,not_not,Bool.not_eq_true] at hno
    exact hquiet hno

/-- A steal moves the oldest threads of the other queue, leaves the rest of it as it is, and merges
what it has moved into the local queue. -/
theorem steal_moves_oldest {pending : Bool} {p : Kthread × Kthread} (hl : l.rq.size ≤ runtimeRqSize)
    (hidle : (l.qHead-l.qTail).toNat = l.threads.length) (hr : r.Counted)
    (hlsorted : Sorted readyTsc l.threads) (hrsorted : Sorted readyTsc r.threads)
    (hsteal : Steals l r pending) (hs : stealWork readyTsc l r pending = some p) :
    half l r ≤ r.threads.length ∧ p.2.threads = r.threads.drop (half l r) ∧
      p.1.threads = l.threads.merge (r.threads.take (half l r)) (byTsc readyTsc) ∧
      Sorted readyTsc p.1.threads ∧ Sorted readyTsc p.2.threads ∧ p.1.Packed := by
  obtain rfl := hsteal.eq hs
  obtain ⟨hthreads,hpacked,hrest⟩ := mergeRunqueues_merges readyTsc (half l r) _ hl hr.size hidle.ge
  refine ⟨?_,hrest,hthreads,?_,?_,hpacked⟩
  · have := hr.published
    unfold half
    omega
  · rw [hthreads]
    exact hlsorted.merge (hrsorted.sublist (take_sublist ..))
  · rw [hrest]
    exact hrsorted.sublist (drop_sublist ..)

/-- A queue with the threads `ths` in its ring, from the index `i` on. -/
def ofList (i : BitVec 32) (ths : List ℕ) : Kthread :=
  ths.foldl (fun k th => (k.addTail th).publish) ⟨⟨fun _ => 0,i,i⟩,[],i,i,.nothing⟩

/-- The indices of the remote ring wrap. -/
theorem steal_moves_oldest_wrapped :
    ∃ p,stealWork (fun th => th) (ofList 0 []) (ofList 4294967294 [3,5,8]) false = some p ∧
      p.2.threads = [8] ∧ p.1.Packed := by
  obtain ⟨p,hp⟩ := Option.isSome_iff_exists.mp (show (stealWork (fun th => th) (ofList 0 [])
    (ofList 4294967294 [3,5,8]) false).isSome by decide +kernel)
  have h := steal_moves_oldest (by decide +kernel) (by decide +kernel)
    ⟨by decide +kernel,by decide +kernel⟩ (by unfold Sorted; decide +kernel)
    (by unfold Sorted; decide +kernel) (by unfold Steals; decide +kernel) hp
  exact ⟨p,hp,h.2.1.trans (by decide +kernel),h.2.2.2.2.2⟩

end Kthread
end RunQueue
end Vessel
