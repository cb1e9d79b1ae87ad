import Vessel.ChunkAlloc
import Mathlib.Logic.Relation

/-! Which chunks belong to whom.
A chunk is marked in the bitmap exactly when one live descriptor has it in its range;
ranges of different descriptors are apart, so tasks share no chunk. -/
namespace Vessel

open Function

def Md.Live (d : Md) : Prop := d.tid ≠ 0

/-- The bitmap and the table of descriptors describe the same chunks. -/
structure PoolInv (n : ℕ) (bits : Bitmap) (mds : ℕ → Md) : Prop where
  marked : ∀ c, bits c = true ↔ ∃ i < nmemd, (mds i).Live ∧ (mds i).Has c
  apart : ∀ i j c, i < nmemd → j < nmemd → (mds i).Live → (mds j).Live →
    (mds i).Has c → (mds j).Has c → i = j
  inside : ∀ i < nmemd, (mds i).Live → (mds i).chunkStart + (mds i).chunkNum ≤ n

section Pool

variable {n : ℕ} {bits : Bitmap} {mds : ℕ → Md}

theorem poolInv_empty {f : ℕ → Md} (h : ∀ i, (f i).tid = 0) : PoolInv n .empty f where
  marked c := by simp [Md.Live,h]
  apart i j c _ _ hi := absurd (h i) hi
  inside i _ hi := absurd (h i) hi

theorem poolInv_take (h : PoolInv n bits mds) {i num start : ℕ} {tid : ℤ} (hi : i < nmemd)
    (hfree : (mds i).tid = 0) (htid : tid ≠ 0) (hclear : bits.Clear start num)
    (hin : start+num ≤ n) :
    PoolInv n (bits.setRange start num) (update mds i ⟨tid,num,start⟩) := by
  have hnew : ∀ j c, j ≠ i → j < nmemd → (mds j).Live → (mds j).Has c →
      ¬(start ≤ c ∧ c < start+num) := by
    intro j c _ hj hl hc hr
    have hset := (h.marked c).mpr ⟨j,hj,hl,hc⟩
    rw [hclear c hr.1 hr.2] at hset
    simp at hset
  constructor
  · intro c
    rw [Bitmap.setRange_eq_true,h.marked]
    constructor
    · rintro (hr | ⟨j,hj,hl,hc⟩)
      · exact ⟨i,hi,by simpa [Md.Live] using htid,by simpa [Md.Has] using hr⟩
      · have hji : j ≠ i := by
          rintro rfl
          exact hl hfree
        exact ⟨j,hj,by simpa [hji] using hl,by simpa [hji] using hc⟩
    · rintro ⟨j,hj,hl,hc⟩
      by_cases hji : j = i
      · subst hji
        exact Or.inl (by simpa [Md.Has] using hc)
      · exact Or.inr ⟨j,hj,by simpa [hji] using hl,by simpa [hji] using hc⟩
  · intro j k c hj hk hlj hlk hcj hck
    by_cases hji : j = i <;> by_cases hki : k = i
    · exact hji.trans hki.symm
    · subst hji
      simp only [update_of_ne hki,update_self] at hlk hck hcj
      exact absurd hcj (hnew k c hki hk hlk hck)
    · subst hki
      simp only [update_of_ne hji,update_self] at hlj hcj hck
      exact absurd hck (hnew j c hji hj hlj hcj)
    · simp only [update_of_ne hji,update_of_ne hki] at hlj hlk hcj hck
      exact h.apart j k c hj hk hlj hlk hcj hck
  · intro j hj hl
    by_cases hji : j = i
    · subst hji
      simpa using hin
    · simp only [update_of_ne hji] at hl ⊢
      exact h.inside j hj hl

theorem poolInv_release (h : PoolInv n bits mds) {i : ℕ} (hi : i < nmemd) (hl : (mds i).Live) :
    PoolInv n (bits.clearRange (mds i).chunkStart (mds i).chunkNum)
      (update mds i { mds i with tid := 0 }) := by
  have hlive : ∀ j, (update mds i { mds i with tid := 0 } j).Live →
      j ≠ i ∧ (mds j).Live := by
    intro j hj
    by_cases hji : j = i
    · simp [Md.Live,hji] at hj
    · exact ⟨hji,by simpa [hji] using hj⟩
  constructor
  · intro c
    rw [Bitmap.clearRange_eq_true,h.marked]
    constructor
    · rintro ⟨hout,j,hj,hlj,hc⟩
      have hji : j ≠ i := by
        rintro rfl
        exact hout hc
      exact ⟨j,hj,by simpa [hji] using hlj,by simpa [hji] using hc⟩
    · rintro ⟨j,hj,hlj,hc⟩
      obtain ⟨hji,hlj⟩ := hlive j hlj
      rw [update_of_ne hji] at hc
      exact ⟨fun hci => hji (h.apart j i c hj hi hlj hl hc hci),j,hj,hlj,hc⟩
  · intro j k c hj hk hlj hlk hcj hck
    obtain ⟨hji,hlj⟩ := hlive j hlj
    obtain ⟨hki,hlk⟩ := hlive k hlk
    rw [update_of_ne hji] at hcj
    rw [update_of_ne hki] at hck
    exact h.apart j k c hj hk hlj hlk hcj hck
  · intro j hj hlj
    obtain ⟨hji,hlj⟩ := hlive j hlj
    rw [update_of_ne hji]
    exact h.inside j hj hlj

end Pool

/-! ### Calls -/

def MemMeta.PoolOk (m : MemMeta) : Prop :=
  PoolInv vesselChunkNum (m.pool .data).chunkAlloc (m.pool .data).mdList

structure MemInv (m : MemMeta) : Prop where
  unlocked : m.memLock = false
  pool : m.PoolOk

/-- `alloc_chunk`, with `pkey_mprotect` succeeding, `free_chunk` and `exit_mem`. -/
inductive ChunkCall
  | alloc (tid : ℤ) (chunkNum head : ℕ)
  | free (tid : ℤ) (md : ℕ)
  | exit (tid : ℤ)

def ChunkCall.tid : ChunkCall → ℤ
  | .alloc tid _ _ | .free tid _ | .exit tid => tid

/-- Task ids are positive and descriptors valid. -/
def ChunkCall.allowed : ChunkCall → Prop
  | .alloc tid _ _ | .exit tid => 0 < tid
  | .free tid md => 0 < tid ∧ 1 ≤ md ∧ md ≤ nmemd

theorem ChunkCall.tid_ne_zero {c : ChunkCall} (hc : c.allowed) : c.tid ≠ 0 := by
  have hpos : 0 < c.tid := by
    cases c with
    | alloc tid num head => exact hc
    | free tid md => exact hc.1
    | exit tid => exact hc
  omega

def Outcome.state : Outcome → MemMeta
  | .returned _ m | .spins m => m

def chunkStep (m : MemMeta) : ChunkCall → MemMeta
  | .alloc tid chunkNum head => (allocChunk m tid chunkNum head false).state
  | .free tid md => (freeChunk m tid md).2
  | .exit tid => exitMem m tid

section Steps

variable {m m' : MemMeta} {tid : ℤ} {num head md : ℕ}

theorem allocChunk_cases (hlock : m.memLock = false) (tid : ℤ) (num head : ℕ) (err : Bool) :
    (allocChunk m tid num head err = .returned none m ∧
      ¬(0 < num ∧ HasRun (m.pool .data).chunkAlloc vesselChunkNum num ∧ (m.pool .data).HasFreeMd)) ∨
    ∃ start i m', allocChunk m tid num head err = .returned (some (chunkid2ptr start)) m' ∧
      0 < num ∧ (m.pool .data).chunkAlloc.FirstRun vesselChunkNum num start ∧
      i < nmemd ∧ ((m.pool .data).mdList i).tid = 0 ∧
      (m'.pool .data).mdList = update (m.pool .data).mdList i ⟨tid,num,start⟩ ∧
      (m'.pool .data).chunkAlloc = (m.pool .data).chunkAlloc.setRange start num ∧
      m'.memLock = false := by
  by_cases hnone : allocChunk m tid num head err = .returned none m
  · exact Or.inl ⟨hnone,(allocChunk_returned_none hlock).mp hnone⟩
  · right
    have hsame : m.spinLock.spinUnlock = m := unlock_lock hlock
    simp only [allocChunk,hsame] at hnone ⊢
    split at hnone
    · exact absurd rfl hnone
    · rename_i henough
      rw [if_neg henough]
      split at hnone
      · exact absurd rfl hnone
      · rename_i index hscan
        obtain ⟨hnum,-,hrun⟩ := scanRun_eq_some hscan
        split at hnone
        · exact absurd rfl hnone
        · rename_i md m' hmd
          obtain ⟨i,hi,htid,hlist,hbits,-⟩ := allocMdIn_some hmd
          simp only [ite_self]
          exact ⟨_,i,_,rfl,hnum,hrun,hi,htid,hlist,hbits,rfl⟩

theorem deallocMd_some (h : deallocMd m tid md = some m') :
    ((m.pool .data).mdList (md-1)).tid = tid ∧
      (m'.pool .data).mdList = update (m.pool .data).mdList (md-1)
        { (m.pool .data).mdList (md-1) with tid := 0 } ∧
      (m'.pool .data).chunkAlloc = (m.pool .data).chunkAlloc.clearRange
        ((m.pool .data).mdList (md-1)).chunkStart ((m.pool .data).mdList (md-1)).chunkNum := by
  rw [deallocMd] at h
  split at h
  · simp at h
  · rename_i htid
    obtain rfl := Option.some.inj h
    exact ⟨(not_not.mp htid).symm,by simp,by simp⟩

theorem poolOk_dealloc (h : m.PoolOk) (htid : tid ≠ 0) (hmd : md-1 < nmemd)
    (hd : deallocMd m tid md = some m') : m'.PoolOk := by
  obtain ⟨howner,hlist,hbits⟩ := deallocMd_some hd
  have hlive : ((m.pool .data).mdList (md-1)).Live := by
    rw [Md.Live,howner]
    exact htid
  rw [MemMeta.PoolOk,hlist,hbits]
  exact poolInv_release h hmd hlive

theorem exitLoop_spec (htid : tid ≠ 0) {is : List ℕ} (his : ∀ i ∈ is, i < nmemd)
    (h : m.PoolOk) :
    (exitLoop tid is m).PoolOk ∧ ∀ j, ((m.pool .data).mdList j).tid ≠ tid →
      ((exitLoop tid is m).pool .data).mdList j = (m.pool .data).mdList j := by
  induction is generalizing m with
  | nil => exact ⟨h,fun _ _ => rfl⟩
  | cons i is ih =>
    have his' : ∀ j ∈ is, j < nmemd := fun j hj => his j (List.mem_cons_of_mem _ hj)
    rw [exitLoop]
    split
    · rename_i hown
      split
      · exact ⟨h,fun _ _ => rfl⟩
      · rename_i m' hd
        obtain ⟨-,hlist,-⟩ := deallocMd_some hd
        have hok := poolOk_dealloc h htid (his i List.mem_cons_self) hd
        obtain ⟨hrest,hkeep⟩ := ih his' hok
        refine ⟨hrest,fun j hj => ?_⟩
        have hji : j ≠ i := by
          rintro rfl
          exact hj hown
        have hm' : (m'.pool .data).mdList j = (m.pool .data).mdList j := by
          rw [hlist]
          exact update_of_ne hji _ _
        rw [hkeep j (by rwa [hm']),hm']
    · exact ih his' h

theorem chunkStep_inv (h : MemInv m) {c : ChunkCall} (hc : c.allowed) : MemInv (chunkStep m c) := by
  have hok : m.spinLock.PoolOk := h.pool
  have htid : c.tid ≠ 0 := ChunkCall.tid_ne_zero hc
  cases c with
  | alloc tid num head =>
    rw [chunkStep]
    rcases allocChunk_cases h.unlocked tid num head false with
      ⟨hnone,-⟩ | ⟨start,i,m',hsome,-,hrun,hi,hfree,hlist,hbits,hlock⟩
    · rw [hnone]
      exact h
    · rw [hsome]
      refine ⟨hlock,?_⟩
      rw [Outcome.state,MemMeta.PoolOk,hlist,hbits]
      exact poolInv_take h.pool hi hfree htid hrun.clear hrun.inside
  | free tid md =>
    obtain ⟨-,hlo,hhi⟩ := hc
    have hidx : md-1 < nmemd := by omega
    rw [chunkStep,freeChunk]
    split
    · exact ⟨rfl,hok⟩
    · rename_i m' hd
      have hok' : m'.PoolOk := poolOk_dealloc hok htid hidx hd
      exact ⟨rfl,hok'⟩
  | exit tid =>
    exact ⟨rfl,(exitLoop_spec htid (fun i hi => List.mem_range.mp hi) hok).1⟩

theorem chunkStep_other (h : MemInv m) {c : ChunkCall} (hc : c.allowed) {i : ℕ}
    (hl : ((m.pool .data).mdList i).Live) (hother : ((m.pool .data).mdList i).tid ≠ c.tid) :
    ((chunkStep m c).pool .data).mdList i = (m.pool .data).mdList i := by
  cases c with
  | alloc tid num head =>
    rw [chunkStep]
    rcases allocChunk_cases h.unlocked tid num head false with
      ⟨hnone,-⟩ | ⟨start,j,m',hsome,-,-,-,hfree,hlist,-⟩
    · rw [hnone]
      rfl
    · have hij : i ≠ j := by
        rintro rfl
        exact hl hfree
      rw [hsome,Outcome.state,hlist,update_of_ne hij]
  | free tid md =>
    rw [chunkStep,freeChunk]
    split
    · rfl
    · rename_i m' hd
      obtain ⟨howner,hlist,-⟩ := deallocMd_some hd
      have hij : i ≠ md-1 := by
        rintro rfl
        exact hother howner
      change (m'.pool .data).mdList i = _
      rw [hlist,update_of_ne hij]
      rfl
  | exit tid =>
    have htid : tid ≠ 0 := ChunkCall.tid_ne_zero hc
    have hok : m.spinLock.PoolOk := h.pool
    exact (exitLoop_spec htid (fun i hi => List.mem_range.mp hi) hok).2 i hother

end Steps

/-! ### Every run -/

/-- Any sequence of calls. -/
def ChunkRun : MemMeta → MemMeta → Prop :=
  Relation.ReflTransGen fun m m' => ∃ c : ChunkCall, c.allowed ∧ m' = chunkStep m c

theorem memInv_initial : MemInv .initial := ⟨rfl,poolInv_empty fun _ => rfl⟩

theorem chunkRun_inv {m : MemMeta} (hrun : ChunkRun .initial m) : MemInv m := by
  induction hrun with
  | refl => exact memInv_initial
  | tail _ hstep ih =>
    obtain ⟨c,hc,rfl⟩ := hstep
    exact chunkStep_inv ih hc

/-- A chunk is marked exactly when one live descriptor has it, ranges are apart and
inside the pool, an allocation takes the lowest free run and fails only for want of a run
or of a descriptor, and a range is released by its owner, whole, and by nobody else. -/
theorem chunkAllocator_invariant {m : MemMeta} (hrun : ChunkRun .initial m) :
    (∀ c, (m.pool .data).chunkAlloc c = true ↔
      ∃! i, i < nmemd ∧ ((m.pool .data).mdList i).Live ∧ ((m.pool .data).mdList i).Has c) ∧
    (∀ i j, i < nmemd → j < nmemd → i ≠ j →
      ((m.pool .data).mdList i).Live → ((m.pool .data).mdList j).Live →
      ∀ c, ¬(((m.pool .data).mdList i).Has c ∧ ((m.pool .data).mdList j).Has c)) ∧
    (∀ i < nmemd, ((m.pool .data).mdList i).Live →
      ((m.pool .data).mdList i).chunkStart + ((m.pool .data).mdList i).chunkNum ≤ vesselChunkNum) ∧
    (∀ (tid : ℤ) (num head : ℕ), 0 < tid → 0 < num →
      (∃ start m', allocChunk m tid num head false = .returned (some (chunkid2ptr start)) m' ∧
        (m.pool .data).chunkAlloc.FirstRun vesselChunkNum num start ∧
        ∃ i < nmemd, ((m.pool .data).mdList i).tid = 0 ∧ (m'.pool .data).mdList i = ⟨tid,num,start⟩) ∨
      allocChunk m tid num head false = .returned none m ∧
        ((∀ start, start+num ≤ vesselChunkNum → ¬(m.pool .data).chunkAlloc.Clear start num) ∨
          ∀ i < nmemd, ((m.pool .data).mdList i).Live)) ∧
    (∀ c : ChunkCall, c.allowed → ∀ i, ((m.pool .data).mdList i).Live →
      ((m.pool .data).mdList i).tid ≠ c.tid →
      ((chunkStep m c).pool .data).mdList i = (m.pool .data).mdList i) ∧
    (∀ (tid : ℤ) (md : ℕ), 1 ≤ md → md ≤ nmemd → ((m.pool .data).mdList (md-1)).tid ≠ tid →
      freeChunk m tid md = (false,m)) ∧
    ∀ md, 1 ≤ md → md ≤ nmemd → ((m.pool .data).mdList (md-1)).Live →
      ∃ m', freeChunk m ((m.pool .data).mdList (md-1)).tid md = (true,m') ∧
        ¬((m'.pool .data).mdList (md-1)).Live ∧
        ∀ c, (m'.pool .data).chunkAlloc c = true ↔
          (m.pool .data).chunkAlloc c = true ∧ ¬((m.pool .data).mdList (md-1)).Has c := by
  have h := chunkRun_inv hrun
  have hp : PoolInv vesselChunkNum (m.pool .data).chunkAlloc (m.pool .data).mdList := h.pool
  refine ⟨fun c => ?_,fun i j hi hj hij hli hlj c hc => ?_,hp.inside,
    fun tid num head _ hnum => ?_,fun c hc i hl ho => chunkStep_other h hc hl ho,
    fun tid md _ _ hne => ?_,fun md _ _ _ => ?_⟩
  · rw [hp.marked]
    constructor
    · rintro ⟨i,hi,hl,hc⟩
      exact ⟨i,⟨hi,hl,hc⟩,fun j hj => hp.apart j i c hj.1 hi hj.2.1 hl hj.2.2 hc⟩
    · rintro ⟨i,hi,-⟩
      exact ⟨i,hi⟩
  · exact hij (hp.apart i j c hi hj hli hlj hc.1 hc.2)
  · rcases allocChunk_cases h.unlocked tid num head false with
      ⟨hnone,hwhy⟩ | ⟨start,i,m',hsome,-,hfirst,hi,hfree,hlist,-⟩
    · refine Or.inr ⟨hnone,?_⟩
      by_cases hhas : HasRun (m.pool .data).chunkAlloc vesselChunkNum num
      · right
        intro i hi hfree
        exact hwhy ⟨hnum,hhas,i,hi,hfree⟩
      · left
        intro start hin hclear
        exact hhas ⟨start,hin,hclear⟩
    · exact Or.inl ⟨start,m',hsome,hfirst,i,hi,hfree,by rw [hlist,update_self]⟩
  · have hrefuse : deallocMd m.spinLock tid md = none := if_pos fun heq => hne heq.symm
    rw [freeChunk,hrefuse,unlock_lock h.unlocked]
  · obtain ⟨m',hd⟩ : ∃ m', deallocMd m.spinLock ((m.pool .data).mdList (md-1)).tid md = some m' :=
      ⟨_,if_neg (not_not.mpr rfl)⟩
    obtain ⟨-,hlist,hbits⟩ := deallocMd_some hd
    refine ⟨m'.spinUnlock,by rw [freeChunk,hd],fun hl => hl ?_,fun c => ?_⟩
    · change ((m'.pool .data).mdList (md-1)).tid = 0
      rw [hlist,update_self]
    · change (m'.pool .data).chunkAlloc c = true ↔ _
      rw [hbits,Bitmap.clearRange_eq_true,and_comm]
      rfl

/-- Three tasks take a chunk each.  The first exits, the second frees its chunk, and the third keeps
its own. -/
theorem chunkAllocator_invariant_tasks : ∃ m m', ChunkRun .initial m ∧
    (m.pool .data).chunkAlloc 0 = false ∧ (m.pool .data).chunkAlloc 2 = true ∧
    (∃! i, i < nmemd ∧ ((m.pool .data).mdList i).Live ∧ ((m.pool .data).mdList i).Has 2) ∧
    freeChunk m 2 2 = (true,m') ∧ ¬((m'.pool .data).mdList 1).Live ∧
    (m'.pool .data).chunkAlloc 1 = false ∧ (m'.pool .data).chunkAlloc 2 = true := by
  obtain ⟨m,hrun,hfree,hkept,htid,hnum,hstart⟩ : ∃ m, ChunkRun .initial m ∧
      (m.pool .data).chunkAlloc 0 = false ∧ (m.pool .data).chunkAlloc 2 = true ∧
      ((m.pool .data).mdList 1).tid = 2 ∧ ((m.pool .data).mdList 1).chunkNum = 1 ∧
      ((m.pool .data).mdList 1).chunkStart = 1 := by
    refine ⟨_,.tail (.tail (.tail (.tail .refl ⟨.alloc 1 1 0,?_,rfl⟩) ⟨.alloc 2 1 1,?_,rfl⟩)
      ⟨.alloc 3 1 2,?_,rfl⟩) ⟨.exit 1,?_,rfl⟩,?_⟩
    all_goals first | decide +kernel | simp [ChunkCall.allowed]
  obtain ⟨hmarked,-,-,-,-,-,hfrees⟩ := chunkAllocator_invariant hrun
  obtain ⟨m',hm',hgone,hbits⟩ := hfrees 2 (by decide) (by decide) (by simp [Md.Live,htid])
  simp only [Nat.reduceSub,htid,Md.Has,hnum,hstart] at hm' hgone hbits
  refine ⟨m,m',hrun,hfree,hkept,(hmarked 2).mp hkept,hm',hgone,?_,by simp [hbits,hkept]⟩
  exact Bool.eq_false_iff.mpr fun hc => by simp [hbits] at hc

end Vessel
