import Vessel.Bitmap
import Mathlib.Data.Int.Notation

/-! Chunks of memory and their descriptors (`core/mem.c`).
There are two pools of chunks, each with a bitmap, a table of descriptors and a place
where the search for a free descriptor starts. -/
namespace Vessel

def nmemd : ℕ := 256

def vesselChunkNum : ℕ := 64

/-- `VESSEL_HUGE_CHUNK_NUM`, defined by the size of the other pool. -/
def vesselHugeChunkNum : ℕ := 64

def gb : ℕ := 1024*1024*1024

/-- `struct vessel_md_meta`; a descriptor with `tid` 0 is free. -/
structure Md where
  tid : ℤ
  chunkNum : ℕ
  chunkStart : ℕ

/-- The chunk belongs to the range of the descriptor. -/
def Md.Has (d : Md) (c : ℕ) : Prop := d.chunkStart ≤ c ∧ c < d.chunkStart + d.chunkNum

inductive PoolKind
  | data
  | huge
  deriving DecidableEq

structure Pool where
  chunkAlloc : Bitmap
  mdList : ℕ → Md
  mdAnchor : ℕ
  anchor_lt : mdAnchor < nmemd

/-- `struct vessel_mem_meta`, and the lists of descriptors that tasks keep, by their
list heads. -/
structure MemMeta where
  memLock : Bool
  pool : PoolKind → Pool
  lists : ℕ → List (PoolKind × ℕ)

namespace MemMeta

def spinLock (m : MemMeta) : MemMeta := { m with memLock := true }

def spinUnlock (m : MemMeta) : MemMeta := { m with memLock := false }

end MemMeta

/-! ### Descriptors -/

/-- Walk the table from entry `i` on, for at most `left` entries, to a free one;
`cnt` counts the entries passed. -/
def mdSearch (mdList : ℕ → Md) : (left i cnt : ℕ) → Option (ℕ × ℕ)
  | 0, _, _ => none
  | left+1, i, cnt =>
    if (mdList i).tid = 0 then some (i,cnt)
    else mdSearch mdList left (if i = nmemd-1 then 0 else i+1) (cnt+1)

/-- Take a free descriptor for a range of chunks: its number, or none. -/
def allocMdIn (k : PoolKind) (m : MemMeta) (tid : ℤ) (head chunkNum chunkStart : ℕ) :
    Option (ℕ × MemMeta) :=
  let pl := m.pool k
  match mdSearch pl.mdList nmemd pl.mdAnchor 0 with
  | none => none
  | some (i,cnt) =>
    let md := (pl.mdAnchor + cnt) % nmemd
    some (md+1,{ m with
      lists := Function.update m.lists head ((k,i)::m.lists head)
      pool := Function.update m.pool k {
        chunkAlloc := pl.chunkAlloc.setRange chunkStart chunkNum
        mdList := Function.update pl.mdList i ⟨tid,chunkNum,chunkStart⟩
        mdAnchor := (md+1) % nmemd
        anchor_lt := Nat.mod_lt _ (by decide) } })

def allocMd := allocMdIn .data

def allocHugeMd := allocMdIn .huge

/-- None where the source returns `-EACCES`.  The list head is not looked at to take the
descriptor off its list. -/
def deallocMd (m : MemMeta) (tid : ℤ) (md : ℕ) : Option MemMeta :=
  let pl := m.pool .data
  let index := md-1
  if tid ≠ (pl.mdList index).tid then none
  else some { m with
    lists := fun head => (m.lists head).erase (.data,index)
    pool := Function.update m.pool .data { pl with
      chunkAlloc := pl.chunkAlloc.clearRange (pl.mdList index).chunkStart (pl.mdList index).chunkNum
      mdList := Function.update pl.mdList index { pl.mdList index with tid := 0 } } }

/-! ### Chunks -/

/-- The loop over cleared bits: the last chunk of the first run of `chunkNum`. -/
def scanRun (chunkNum : ℕ) : List ℕ → (preindex : ℤ) → (avaChunk : ℕ) → Option ℕ
  | [], _, _ => none
  | index::rest, preindex, avaChunk =>
    let ava := if preindex ≠ (index : ℤ) - 1 ∨ preindex = -1 then 0 else avaChunk
    if ava+1 = chunkNum then some index else scanRun chunkNum rest index (ava+1)

def chunkid2ptr (chunkStart : ℕ) : ℕ := 3*gb + chunkStart*gb

def hugechunkid2ptr (chunkStart : ℕ) : ℕ := 67*gb + chunkStart*gb

/-- A call returns a pointer or `NULL`, or it never returns. -/
inductive Outcome
  | returned (res : Option ℕ) (m : MemMeta)
  | spins (m : MemMeta)

/-- `alloc_chunk`; `err` says that `pkey_mprotect` fails. -/
def allocChunk (m : MemMeta) (tid : ℤ) (chunkNum head : ℕ) (err : Bool) : Outcome :=
  let m := m.spinLock
  let bits := (m.pool .data).chunkAlloc
  if vesselChunkNum - bits.popcount vesselChunkNum < chunkNum then .returned none m.spinUnlock
  else
    match scanRun chunkNum (bits.clearedBits vesselChunkNum) (-1) 0 with
    | none => .returned none m.spinUnlock
    | some index =>
      match allocMd m tid head chunkNum (index+1-chunkNum) with
      | none => .returned none m.spinUnlock
      | some (_,m) =>
        let res := some (chunkid2ptr (index+1-chunkNum))
        -- the failure path does not take `res` back
        if err then .returned res m.spinUnlock else .returned res m.spinUnlock

/-- `alloc_huge_chunk`: the label `fail` is an endless loop. -/
def allocHugeChunk (m : MemMeta) (tid : ℤ) (chunkNum head : ℕ) (err : Bool) : Outcome :=
  let m := m.spinLock
  let bits := (m.pool .huge).chunkAlloc
  if chunkNum = 0 then .spins m
  else if vesselHugeChunkNum - bits.popcount vesselHugeChunkNum < chunkNum then .spins m
  else
    match scanRun chunkNum (bits.clearedBits vesselHugeChunkNum) (-1) 0 with
    | none => .returned none m.spinUnlock
    | some index =>
      match allocHugeMd m tid head chunkNum (index+1-chunkNum) with
      | none => .spins m
      | some (_,m) =>
        if err then .spins m
        else .returned (some (hugechunkid2ptr (index+1-chunkNum))) m.spinUnlock

/-- True where `free_chunk` returns 0. -/
def freeChunk (m : MemMeta) (tid : ℤ) (md : ℕ) : Bool × MemMeta :=
  match deallocMd m.spinLock tid md with
  | none => (false,m.spinLock.spinUnlock)
  | some m => (true,m.spinUnlock)

/-- The loop of `exit_mem`; a refused descriptor ends it. -/
def exitLoop (tid : ℤ) : List ℕ → MemMeta → MemMeta
  | [], m => m
  | i::is, m =>
    if ((m.pool .data).mdList i).tid = tid then
      match deallocMd m tid (i+1) with
      | none => m
      | some m => exitLoop tid is m
    else exitLoop tid is m

def exitMem (m : MemMeta) (tid : ℤ) : MemMeta :=
  (exitLoop tid (List.range nmemd) m.spinLock).spinUnlock

/-- `__init_mem_meta`. -/
def MemMeta.initial : MemMeta where
  memLock := false
  pool _ := ⟨.empty,fun _ => ⟨0,0,0⟩,0,by decide⟩
  lists _ := []

/-! ### What the two searches find -/

section Scan

variable {b : Bitmap} {num : ℕ}

/-- The loop at position `k`: `r` cleared bits stand before `k`, and no run ends there. -/
structure ScanAt (b : Bitmap) (num k r : ℕ) : Prop where
  le : r ≤ k
  clear : b.Clear (k-r) r
  maximal : r = k ∨ b (k-r-1) = true
  short : r < num
  none_before : ∀ s, s+num ≤ k → ¬b.Clear s num

theorem scanAt_zero (hn : 0 < num) : ScanAt b num 0 0 where
  le := by omega
  clear := fun i h1 h2 => by omega
  maximal := Or.inl rfl
  short := hn
  none_before := fun s hs => by omega

theorem scanAt_set {k r : ℕ} (h : ScanAt b num k r) (hk : b k = true) : ScanAt b num (k+1) 0 where
  le := by omega
  clear := fun i h1 h2 => by omega
  maximal := Or.inr (by simpa using hk)
  short := by have := h.short; omega
  none_before := by
    intro s hs hc
    have hshort := h.short
    by_cases hsk : s+num ≤ k
    · exact h.none_before s hsk hc
    · have := hc k (by omega) (by omega)
      simp [hk] at this

theorem scanAt_clear {k r : ℕ} (h : ScanAt b num k r) (hk : b k = false) (hr : r+1 ≠ num) :
    ScanAt b num (k+1) (r+1) where
  le := by have := h.le; omega
  clear := by
    intro i h1 h2
    have hle := h.le
    by_cases hik : i = k
    · rw [hik,hk]
    · exact h.clear i (by omega) (by omega)
  maximal := by
    rcases h.maximal with hm | hm
    · exact Or.inl (by omega)
    · right
      rwa [show k+1-(r+1)-1 = k-r-1 by omega]
  short := by have := h.short; omega
  none_before := by
    intro s hs hc
    have hshort := h.short
    have hle := h.le
    by_cases hsk : s+num ≤ k
    · exact h.none_before s hsk hc
    · rcases h.maximal with hm | hm
      · omega
      · have := hc (k-r-1) (by omega) (by omega)
        simp [hm] at this

theorem scanRun_from (d : ℕ) : ∀ {k r : ℕ} {preindex : ℤ} {ava : ℕ}, ScanAt b num k r →
    preindex < k → (if preindex ≠ (k : ℤ) - 1 ∨ preindex = -1 then 0 else ava) = r →
    match scanRun num ((List.range' k d).filter fun i => !b i) preindex ava with
    | some index => num ≤ index+1 ∧ b.FirstRun (k+d) num (index+1-num)
    | none => ∀ s, s+num ≤ k+d → ¬b.Clear s num := by
  induction d with
  | zero =>
    intro k r preindex ava h _ _
    exact h.none_before
  | succ d ih =>
    intro k r preindex ava h hpre hr
    have hlist : List.range' k (d+1) = k::List.range' (k+1) d := rfl
    rw [hlist,show k+(d+1) = k+1+d by omega]
    cases hk : b k with
    | true =>
      rw [List.filter_cons_of_neg (by simp [hk])]
      refine ih (scanAt_set h hk) (by omega) ?_
      rw [if_pos (Or.inl (by omega))]
    | false =>
      rw [List.filter_cons_of_pos (by simp [hk]),scanRun,hr]
      by_cases hnum : r+1 = num
      · have hle := h.le
        simp only [hnum,if_true]
        refine ⟨by omega,by omega,?_,fun s hs hc => h.none_before s (by omega) hc⟩
        intro i h1 h2
        by_cases hik : i = k
        · rw [hik,hk]
        · exact h.clear i (by omega) (by omega)
      · simp only [hnum,if_false]
        refine ih (scanAt_clear h hk hnum) (by omega) ?_
        rw [if_neg (by omega)]

theorem scanRun_spec (b : Bitmap) (n : ℕ) (hnum : 0 < num) :
    match scanRun num (b.clearedBits n) (-1) 0 with
    | some index => num ≤ index+1 ∧ b.FirstRun n num (index+1-num)
    | none => ∀ s, s+num ≤ n → ¬b.Clear s num := by
  have h := scanRun_from (b:=b) n (scanAt_zero hnum) (show (-1 : ℤ) < (0 : ℕ) by omega)
    (show (if (-1 : ℤ) ≠ ((0 : ℕ) : ℤ) - 1 ∨ (-1 : ℤ) = -1 then 0 else 0) = 0 by simp)
  rw [Bitmap.clearedBits,List.range_eq_range']
  simpa only [Nat.zero_add] using h

end Scan

section Search

variable {mdList : ℕ → Md}

theorem mdSearch_some {left i cnt j c : ℕ} (hi : i < nmemd)
    (h : mdSearch mdList left i cnt = some (j,c)) : j < nmemd ∧ (mdList j).tid = 0 := by
  induction left generalizing i cnt with
  | zero => simp [mdSearch] at h
  | succ left ih =>
    rw [mdSearch] at h
    split at h
    · rename_i htid
      obtain ⟨rfl,-⟩ := Prod.mk.inj (Option.some.inj h)
      exact ⟨hi,htid⟩
    · refine ih ?_ h
      split <;> omega

theorem mdSearch_none {left i cnt : ℕ} (hi : i < nmemd) (h : mdSearch mdList left i cnt = none)
    (t : ℕ) (ht : t < left) : (mdList ((i+t) % nmemd)).tid ≠ 0 := by
  induction left generalizing i cnt t with
  | zero => omega
  | succ left ih =>
    rw [mdSearch] at h
    split at h
    · simp at h
    · rename_i htid
      have hnext : (if i = nmemd-1 then 0 else i+1) = (i+1) % nmemd := by
        unfold nmemd at hi ⊢
        split <;> omega
      cases t with
      | zero => rwa [Nat.add_zero,Nat.mod_eq_of_lt hi]
      | succ t =>
        rw [hnext] at h
        have hrec := ih (Nat.mod_lt _ (by decide)) h t (by omega)
        rwa [Nat.mod_add_mod,show i+1+t = i+(t+1) by omega] at hrec

theorem mdSearch_full {i cnt : ℕ} (hi : i < nmemd) (h : mdSearch mdList nmemd i cnt = none)
    (j : ℕ) (hj : j < nmemd) : (mdList j).tid ≠ 0 := by
  have hseen := mdSearch_none hi h ((j + nmemd - i) % nmemd) (Nat.mod_lt _ (by decide))
  have hround : (i + (j + nmemd - i) % nmemd) % nmemd = j := by
    unfold nmemd at hi hj ⊢
    omega
  rwa [hround] at hseen

end Search

/-- Some run of `num` chunks is free. -/
def HasRun (b : Bitmap) (n num : ℕ) : Prop := ∃ s, s+num ≤ n ∧ b.Clear s num

def Pool.HasFreeMd (pl : Pool) : Prop := ∃ i < nmemd, (pl.mdList i).tid = 0

theorem scanRun_zero (cs : List ℕ) (preindex : ℤ) (ava : ℕ) :
    scanRun 0 cs preindex ava = none := by
  induction cs generalizing preindex ava with
  | nil => rfl
  | cons c cs ih => simp [scanRun,ih]

theorem scanRun_eq_none {b : Bitmap} {n num : ℕ} (h : scanRun num (b.clearedBits n) (-1) 0 = none) :
    ¬(0 < num ∧ HasRun b n num) := by
  rintro ⟨hnum,s,hs,hc⟩
  have hspec := scanRun_spec b n hnum
  rw [h] at hspec
  exact hspec s hs hc

theorem scanRun_eq_some {b : Bitmap} {n num index : ℕ}
    (h : scanRun num (b.clearedBits n) (-1) 0 = some index) :
    0 < num ∧ num ≤ index+1 ∧ b.FirstRun n num (index+1-num) := by
  have hnum : 0 < num := by
    rcases Nat.eq_zero_or_pos num with rfl | hpos
    · simp [scanRun_zero] at h
    · exact hpos
  have hspec := scanRun_spec b n hnum
  rw [h] at hspec
  exact ⟨hnum,hspec⟩

section AllocMd

variable {k : PoolKind} {m m' : MemMeta} {tid : ℤ} {head num start md : ℕ}

theorem allocMdIn_none (h : allocMdIn k m tid head num start = none) : ¬(m.pool k).HasFreeMd := by
  rintro ⟨i,hi,htid⟩
  rw [allocMdIn] at h
  split at h
  · rename_i hs
    exact mdSearch_full (m.pool k).anchor_lt hs i hi htid
  · simp at h

theorem allocMdIn_some (h : allocMdIn k m tid head num start = some (md,m')) :
    ∃ i < nmemd, ((m.pool k).mdList i).tid = 0 ∧
      (m'.pool k).mdList = Function.update (m.pool k).mdList i ⟨tid,num,start⟩ ∧
      (m'.pool k).chunkAlloc = (m.pool k).chunkAlloc.setRange start num ∧
      m'.memLock = m.memLock := by
  rw [allocMdIn] at h
  split at h
  · simp at h
  · rename_i i cnt hs
    obtain ⟨-,rfl⟩ := Prod.mk.inj (Option.some.inj h)
    obtain ⟨hi,htid⟩ := mdSearch_some (m.pool k).anchor_lt hs
    exact ⟨i,hi,htid,by simp,by simp,rfl⟩

end AllocMd

/-! ### Failed allocations -/

theorem unlock_lock {m : MemMeta} (h : m.memLock = false) : m.spinLock.spinUnlock = m := by
  cases m
  simp_all [MemMeta.spinLock,MemMeta.spinUnlock]

section Failure

variable {m : MemMeta} {tid : ℤ} {num head : ℕ} {err : Bool}

theorem not_hasRun_of_popcount {b : Bitmap} {n : ℕ} (h : n - b.popcount n < num) :
    ¬HasRun b n num := by
  rintro ⟨s,hs,hc⟩
  have := hc.le_popcount hs
  omega

/-- `alloc_chunk` leaves everything as it was unless it gets as far as a descriptor. -/
theorem allocChunk_returned_none (hlock : m.memLock = false) :
    allocChunk m tid num head err = .returned none m ↔
      ¬(0 < num ∧ HasRun (m.pool .data).chunkAlloc vesselChunkNum num ∧ (m.pool .data).HasFreeMd) := by
  have hsame : m.spinLock.spinUnlock = m := unlock_lock hlock
  simp only [allocChunk,hsame]
  split
  · rename_i hfew
    have hno := not_hasRun_of_popcount hfew
    exact ⟨fun _ h => hno h.2.1,fun _ => rfl⟩
  · split
    · rename_i hscan
      have hno := scanRun_eq_none hscan
      exact ⟨fun _ h => hno ⟨h.1,h.2.1⟩,fun _ => rfl⟩
    · rename_i index hscan
      obtain ⟨hnum,-,hrun⟩ := scanRun_eq_some hscan
      split
      · rename_i hmd
        have hno := allocMdIn_none hmd
        exact ⟨fun _ h => hno h.2.2,fun _ => rfl⟩
      · rename_i md m' hmd
        obtain ⟨i,hi,htid,-⟩ := allocMdIn_some hmd
        have hfree : (m.pool .data).HasFreeMd := ⟨i,hi,htid⟩
        simp only [ite_self,Outcome.returned.injEq,reduceCtorEq,false_and,false_iff,not_not]
        exact ⟨hnum,⟨_,hrun.inside,hrun.clear⟩,hfree⟩

/-- `alloc_huge_chunk` returns `NULL` only if chunks are free but no run is long enough. -/
theorem allocHugeChunk_returned_none (hlock : m.memLock = false) :
    allocHugeChunk m tid num head err = .returned none m ↔
      0 < num ∧ num ≤ vesselHugeChunkNum - (m.pool .huge).chunkAlloc.popcount vesselHugeChunkNum ∧
        ¬HasRun (m.pool .huge).chunkAlloc vesselHugeChunkNum num := by
  have hsame : m.spinLock.spinUnlock = m := unlock_lock hlock
  simp only [allocHugeChunk,hsame]
  split
  · rename_i hzero
    simp [hzero]
  · rename_i hpos
    split
    · rename_i hfew
      have hfew : vesselHugeChunkNum -
        (m.pool .huge).chunkAlloc.popcount vesselHugeChunkNum < num := hfew
      simp only [reduceCtorEq,false_iff]
      omega
    · rename_i henough
      have hle : num ≤ vesselHugeChunkNum -
        (m.pool .huge).chunkAlloc.popcount vesselHugeChunkNum := Nat.le_of_not_lt henough
      split
      · rename_i hscan
        have hno := scanRun_eq_none hscan
        exact ⟨fun _ => ⟨by omega,hle,fun hr => hno ⟨by omega,hr⟩⟩,fun _ => rfl⟩
      · rename_i index hscan
        obtain ⟨-,-,hrun⟩ := scanRun_eq_some hscan
        have hhas : HasRun (m.pool .huge).chunkAlloc vesselHugeChunkNum num :=
          ⟨_,hrun.inside,hrun.clear⟩
        split
        · simp [hhas]
        · split <;> simp [hhas]

end Failure

/-- A run and a descriptor are free and `pkey_mprotect` succeeds. -/
def AllocCompletes (pl : Pool) (n num : ℕ) (err : Bool) : Prop :=
  0 < num ∧ HasRun pl.chunkAlloc n num ∧ pl.HasFreeMd ∧ err = false

/-- When a request that cannot complete returns `NULL` with the lock released and nothing
changed: for `alloc_chunk` unless `pkey_mprotect` fails after a descriptor was taken, for
`alloc_huge_chunk` only if enough chunks are free but no run of them. -/
theorem failedAlloc_unchanged {m : MemMeta} (hlock : m.memLock = false) (tid : ℤ) (num head : ℕ)
    (err : Bool) :
    (¬AllocCompletes (m.pool .data) vesselChunkNum num err →
      (allocChunk m tid num head err = .returned none m ↔
        ¬(0 < num ∧ HasRun (m.pool .data).chunkAlloc vesselChunkNum num ∧
          (m.pool .data).HasFreeMd ∧ err = true))) ∧
    (¬AllocCompletes (m.pool .huge) vesselHugeChunkNum num err →
      (allocHugeChunk m tid num head err = .returned none m ↔
        0 < num ∧
        num ≤ vesselHugeChunkNum - (m.pool .huge).chunkAlloc.popcount vesselHugeChunkNum ∧
        ¬HasRun (m.pool .huge).chunkAlloc vesselHugeChunkNum num)) := by
  refine ⟨fun hfail => ?_,fun _ => allocHugeChunk_returned_none hlock⟩
  rw [allocChunk_returned_none hlock]
  cases err with
  | true => simp
  | false =>
    have hno : ¬(0 < num ∧ HasRun (m.pool .data).chunkAlloc vesselChunkNum num ∧
        (m.pool .data).HasFreeMd) := fun h => hfail ⟨h.1,h.2.1,h.2.2,rfl⟩
    simp [hno]

/-- More chunks than there are: `alloc_chunk` fails cleanly. -/
theorem failedAlloc_unchanged_too_many :
    ¬HasRun (MemMeta.initial.pool .data).chunkAlloc vesselChunkNum 65 ∧
      allocChunk .initial 1 65 0 false = .returned none .initial := by
  have hno : ¬HasRun (MemMeta.initial.pool .data).chunkAlloc vesselChunkNum 65 := by
    rintro ⟨s,hs,-⟩
    unfold vesselChunkNum at hs
    omega
  have hfail : ¬AllocCompletes (MemMeta.initial.pool .data) vesselChunkNum 65 false :=
    fun h => hno h.2.1
  exact ⟨hno,((failedAlloc_unchanged rfl 1 65 0 false).1 hfail).mpr fun h => hno h.2.1⟩

/-- A failing `pkey_mprotect` leaves `alloc_chunk` with a pointer, a set bit and a listed
descriptor; a request for too many huge chunks never returns and keeps the lock. -/
theorem failedAlloc_changes :
    (∃ p m, allocChunk .initial 1 1 0 true = .returned (some p) m ∧
      (m.pool .data).chunkAlloc 0 = true ∧ (MemMeta.initial.pool .data).chunkAlloc 0 = false ∧
      m.lists 0 = [(.data,0)] ∧ MemMeta.initial.lists 0 = []) ∧
    ∃ m, allocHugeChunk .initial 1 65 0 false = .spins m ∧ m.memLock = true := by
  constructor
  · refine ⟨_,_,rfl,?_,rfl,?_,rfl⟩
    · decide
    · decide
  · exact ⟨_,rfl,rfl⟩

end Vessel
