import Vessel.ChunkInvariant

/-! What a task leaves behind when it exits.
`exit_mem` walks the descriptors of one pool; the other pool has descriptors of its own,
which no function of the source gives back. -/
namespace Vessel

/-! ### Allocations from both pools -/

/-- Both pools agree with their descriptors, and nobody holds the lock. -/
structure BothInv (m : MemMeta) : Prop extends MemInv m where
  huge : PoolInv vesselHugeChunkNum (m.pool .huge).chunkAlloc (m.pool .huge).mdList

section Alloc

variable {m m' : MemMeta} {j k : PoolKind} {tid : ℤ} {num head start md : ℕ} {err : Bool}
  {r : Option ℕ}

theorem allocMdIn_other (h : allocMdIn k m tid head num start = some (md,m')) (hk : j ≠ k) :
    m'.pool j = m.pool j := by
  rw [allocMdIn] at h
  split at h
  · simp at h
  · obtain ⟨-,rfl⟩ := Prod.mk.inj (Option.some.inj h)
    exact Function.update_of_ne hk _ _

theorem allocMdIn_inv {n : ℕ}
    (h : PoolInv n (m.pool k).chunkAlloc (m.pool k).mdList) (htid : tid ≠ 0)
    (hrun : (m.pool k).chunkAlloc.FirstRun n num start)
    (hmd : allocMdIn k m tid head num start = some (md,m')) :
    PoolInv n (m'.pool k).chunkAlloc (m'.pool k).mdList := by
  obtain ⟨i,hi,hfree,hlist,hbits,-⟩ := allocMdIn_some hmd
  rw [hlist,hbits]
  exact poolInv_take h hi hfree htid hrun.clear hrun.inside

theorem allocChunk_both (h : BothInv m) (htid : tid ≠ 0)
    (hret : allocChunk m tid num head err = .returned r m') : BothInv m' := by
  have hsame : m.spinLock.spinUnlock = m := unlock_lock h.unlocked
  simp only [allocChunk,hsame,ite_self] at hret
  split at hret
  · obtain ⟨-,rfl⟩ := Outcome.returned.inj hret
    exact h
  · split at hret
    · obtain ⟨-,rfl⟩ := Outcome.returned.inj hret
      exact h
    · rename_i index hscan
      obtain ⟨-,-,hrun⟩ := scanRun_eq_some hscan
      split at hret
      · obtain ⟨-,rfl⟩ := Outcome.returned.inj hret
        exact h
      · rename_i md m₁ hmd
        obtain ⟨-,rfl⟩ := Outcome.returned.inj hret
        have hdata := allocMdIn_inv (m:=m.spinLock) h.pool htid hrun hmd
        have hhuge := allocMdIn_other (j:=.huge) hmd (by decide)
        refine ⟨⟨rfl,hdata⟩,?_⟩
        change PoolInv _ (m₁.pool .huge).chunkAlloc (m₁.pool .huge).mdList
        rw [hhuge]
        exact h.huge

theorem allocHugeChunk_both (h : BothInv m) (htid : tid ≠ 0)
    (hret : allocHugeChunk m tid num head err = .returned r m') : BothInv m' := by
  have hsame : m.spinLock.spinUnlock = m := unlock_lock h.unlocked
  simp only [allocHugeChunk,hsame] at hret
  split at hret
  · simp at hret
  · split at hret
    · simp at hret
    · split at hret
      · obtain ⟨-,rfl⟩ := Outcome.returned.inj hret
        exact h
      · rename_i index hscan
        obtain ⟨-,-,hrun⟩ := scanRun_eq_some hscan
        split at hret
        · simp at hret
        · rename_i md m₁ hmd
          split at hret
          · simp at hret
          · obtain ⟨-,rfl⟩ := Outcome.returned.inj hret
            have hhuge := allocMdIn_inv (m:=m.spinLock) h.huge htid hrun hmd
            have hdata := allocMdIn_other (j:=.data) hmd (by decide)
            refine ⟨⟨rfl,?_⟩,hhuge⟩
            change PoolInv _ (m₁.pool .data).chunkAlloc (m₁.pool .data).mdList
            rw [hdata]
            exact h.pool

end Alloc

/-! ### The exit -/

section Exit

variable {m : MemMeta} {tid : ℤ}

theorem deallocMd_huge {m' : MemMeta} {md : ℕ} (h : deallocMd m tid md = some m') :
    m'.pool .huge = m.pool .huge := by
  rw [deallocMd] at h
  split at h
  · simp at h
  · obtain rfl := Option.some.inj h
    simp

theorem exitLoop_cons (tid : ℤ) (i : ℕ) (is : List ℕ) (m : MemMeta) :
    (((m.pool .data).mdList i).tid = tid ∧ ∃ m', deallocMd m tid (i+1) = some m' ∧
      exitLoop tid (i::is) m = exitLoop tid is m') ∨
    ((m.pool .data).mdList i).tid ≠ tid ∧ exitLoop tid (i::is) m = exitLoop tid is m := by
  by_cases hown : ((m.pool .data).mdList i).tid = tid
  · left
    have hgrant : deallocMd m tid (i+1) = some _ := if_neg (not_not.mpr hown.symm)
    exact ⟨hown,_,hgrant,by rw [exitLoop,if_pos hown,hgrant]⟩
  · exact Or.inr ⟨hown,by rw [exitLoop,if_neg hown]⟩

theorem exitLoop_huge (is : List ℕ) (m : MemMeta) :
    (exitLoop tid is m).pool .huge = m.pool .huge := by
  induction is generalizing m with
  | nil => rfl
  | cons i is ih =>
    rcases exitLoop_cons tid i is m with ⟨-,m',hd,hloop⟩ | ⟨-,hloop⟩
    · rw [hloop,ih,deallocMd_huge hd]
    · rw [hloop,ih]

theorem exitLoop_released {is : List ℕ} {j : ℕ}
    (hj : ((m.pool .data).mdList j).tid = 0 ∨ j ∈ is ∧ ((m.pool .data).mdList j).tid = tid) :
    (((exitLoop tid is m).pool .data).mdList j).tid = 0 := by
  induction is generalizing m with
  | nil => simpa [exitLoop] using hj
  | cons i is ih =>
    rcases exitLoop_cons tid i is m with ⟨hown,m',hd,hloop⟩ | ⟨hother,hloop⟩
    · rw [hloop]
      apply ih
      obtain ⟨-,hlist,-⟩ := deallocMd_some hd
      rw [hlist,Nat.add_sub_cancel]
      by_cases hji : j = i
      · left
        rw [hji,Function.update_self]
      · rw [Function.update_of_ne hji]
        simpa [hji] using hj
    · rw [hloop]
      apply ih
      by_cases hji : j = i
      · subst hji
        exact hj.imp_right fun h => absurd h.2 hother
      · simpa [hji] using hj

theorem exitMem_huge (m : MemMeta) (tid : ℤ) : (exitMem m tid).pool .huge = m.pool .huge :=
  exitLoop_huge _ m.spinLock

/-- The task has nothing left in either pool, and the others have what they had. -/
structure Released (m m' : MemMeta) (tid : ℤ) : Prop where
  gone : ∀ k, ∀ i < nmemd, ((m'.pool k).mdList i).tid ≠ tid
  bits : ∀ k, ∀ i < nmemd, ((m.pool k).mdList i).tid = tid →
    ∀ c, ((m.pool k).mdList i).Has c → (m'.pool k).chunkAlloc c = false
  others : ∀ k, ∀ i < nmemd, ((m.pool k).mdList i).Live → ((m.pool k).mdList i).tid ≠ tid →
    (m'.pool k).mdList i = (m.pool k).mdList i ∧
      ∀ c, ((m.pool k).mdList i).Has c → (m'.pool k).chunkAlloc c = true

theorem exitMem_data (h : MemInv m) (htid : tid ≠ 0) :
    (exitMem m tid).PoolOk ∧
    (∀ i < nmemd, ((m.pool .data).mdList i).tid = tid →
      (((exitMem m tid).pool .data).mdList i).tid = 0) ∧
    ∀ i, ((m.pool .data).mdList i).tid ≠ tid →
      ((exitMem m tid).pool .data).mdList i = (m.pool .data).mdList i := by
  have hok : m.spinLock.PoolOk := h.pool
  obtain ⟨hpool,hkeep⟩ := exitLoop_spec htid (fun i hi => List.mem_range.mp hi) hok
  refine ⟨hpool,fun i hi hown => ?_,hkeep⟩
  exact exitLoop_released (m:=m.spinLock) (Or.inr ⟨List.mem_range.mpr hi,hown⟩)

/-- A chunk of the task is free afterwards: a descriptor that still marked it would have
shared it with the task's own. -/
theorem exitMem_bits (h : MemInv m) (htid : tid ≠ 0) {i c : ℕ} (hi : i < nmemd)
    (hown : ((m.pool .data).mdList i).tid = tid) (hc : ((m.pool .data).mdList i).Has c) :
    ((exitMem m tid).pool .data).chunkAlloc c = false := by
  obtain ⟨hpool,hfreed,hkeep⟩ := exitMem_data h htid
  rw [Bool.eq_false_iff]
  intro hset
  obtain ⟨j,hj,hlive,hjc⟩ := (hpool.marked c).mp hset
  by_cases hjown : ((m.pool .data).mdList j).tid = tid
  · exact hlive (hfreed j hj hjown)
  · rw [hkeep j hjown] at hlive hjc
    have hlive' : ((m.pool .data).mdList i).Live := by rwa [Md.Live,hown]
    have hij : i = j := h.pool.apart i j c hi hj hlive' hlive hc hjc
    exact hjown (hij ▸ hown)

theorem exitMem_others (h : MemInv m) (htid : tid ≠ 0) {i : ℕ} (hi : i < nmemd)
    (hlive : ((m.pool .data).mdList i).Live) (hother : ((m.pool .data).mdList i).tid ≠ tid) :
    ((exitMem m tid).pool .data).mdList i = (m.pool .data).mdList i ∧
      ∀ c, ((m.pool .data).mdList i).Has c → ((exitMem m tid).pool .data).chunkAlloc c = true := by
  obtain ⟨hpool,-,hkeep⟩ := exitMem_data h htid
  have hsame := hkeep i hother
  refine ⟨hsame,fun c hc => (hpool.marked c).mpr ⟨i,hi,?_⟩⟩
  rw [hsame]
  exact ⟨hlive,hc⟩

end Exit

/-! ### Every history of allocations -/

/-- A call of `alloc_chunk` or `alloc_huge_chunk` by some task that returns. -/
def AllocStep (m m' : MemMeta) : Prop :=
  ∃ (tid : ℤ) (num head : ℕ) (err : Bool) (r : Option ℕ), 0 < tid ∧
    (allocChunk m tid num head err = .returned r m' ∨
      allocHugeChunk m tid num head err = .returned r m')

def AllocRun : MemMeta → MemMeta → Prop := Relation.ReflTransGen AllocStep

theorem allocStep_both {m m' : MemMeta} (h : BothInv m) (hstep : AllocStep m m') : BothInv m' := by
  obtain ⟨tid,num,head,err,r,hpos,hdata | hhuge⟩ := hstep
  · exact allocChunk_both h (by omega) hdata
  · exact allocHugeChunk_both h (by omega) hhuge

theorem allocRun_both {m : MemMeta} (hrun : AllocRun .initial m) : BothInv m := by
  induction hrun with
  | refl => exact ⟨memInv_initial,poolInv_empty fun _ => rfl⟩
  | tail _ hstep ih => exact allocStep_both ih hstep

/-- An exit releases everything exactly when the task has no descriptor of the other pool. -/
theorem exitMem_released_iff {m : MemMeta} (hrun : AllocRun .initial m) {tid : ℤ} (hpos : 0 < tid) :
    Released m (exitMem m tid) tid ↔ ∀ i < nmemd, ((m.pool .huge).mdList i).tid ≠ tid := by
  have h := allocRun_both hrun
  have htid : tid ≠ 0 := by omega
  constructor
  · intro hrel i hi
    have hgone := hrel.gone .huge i hi
    rwa [exitMem_huge] at hgone
  · intro hnone
    obtain ⟨-,hfreed,hkeep⟩ := exitMem_data h.toMemInv htid
    constructor
    · intro k i hi
      cases k with
      | data =>
        by_cases hown : ((m.pool .data).mdList i).tid = tid
        · rw [hfreed i hi hown]
          exact htid.symm
        · rwa [hkeep i hown]
      | huge =>
        rw [exitMem_huge]
        exact hnone i hi
    · intro k i hi hown c hc
      cases k with
      | data => exact exitMem_bits h.toMemInv htid hi hown hc
      | huge => exact absurd hown (hnone i hi)
    · intro k i hi hlive hother
      cases k with
      | data => exact exitMem_others h.toMemInv htid hi hlive hother
      | huge =>
        rw [exitMem_huge]
        exact ⟨rfl,fun c hc => (h.huge.marked c).mpr ⟨i,hi,hlive,hc⟩⟩

/-- Two tasks have a chunk each, one of each pool; the one with the ordinary chunk exits. -/
theorem exitMem_released_iff_ordinary : ∃ m, AllocRun .initial m ∧
    ((m.pool .data).mdList 0).tid = 1 ∧ ((m.pool .huge).mdList 0).tid = 2 ∧
    Released m (exitMem m 1) 1 := by
  let m₁ := (allocChunk .initial 1 1 0 false).state
  let m₂ := (allocHugeChunk m₁ 2 1 1 false).state
  have hrun : AllocRun .initial m₂ :=
    .tail (.tail .refl ⟨1,1,0,false,_,by decide,Or.inl rfl⟩) ⟨2,1,1,false,_,by decide,Or.inr rfl⟩
  have hnone : ∀ i < nmemd, ((m₂.pool .huge).mdList i).tid ≠ 1 := by decide +kernel
  have hrel := (exitMem_released_iff hrun (by decide)).mpr hnone
  exact ⟨m₂,hrun,by decide +kernel,by decide +kernel,hrel⟩

/-- A task takes one chunk of the other pool and exits: it keeps the descriptor and the chunk. -/
theorem exitMem_keeps_huge : ∃ m, AllocRun .initial m ∧
    ((exitMem m 1).pool .huge).chunkAlloc 0 = true ∧
    (((exitMem m 1).pool .huge).mdList 0).tid = 1 ∧ ¬Released m (exitMem m 1) 1 := by
  let m₁ := (allocHugeChunk .initial 1 1 0 false).state
  have hrun : AllocRun .initial m₁ := .tail .refl ⟨1,1,0,false,_,by decide,Or.inr rfl⟩
  have hkept : (((exitMem m₁ 1).pool .huge).mdList 0).tid = 1 := by decide +kernel
  exact ⟨m₁,hrun,by decide +kernel,hkept,fun hrel => hrel.gone .huge 0 (by decide) hkept⟩

end Vessel
