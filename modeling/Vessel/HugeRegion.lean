import Vessel.ChunkInvariant
import Vessel.Machine
import Mathlib.Algebra.BigOperators.Group.List.Basic
import Mathlib.Algebra.GroupWithZero.Nat
import Mathlib.Data.Finset.Card

/-! Huge chunks and the region that is mapped for them.
Nothing releases a huge chunk, so each call takes the chunks behind those of the calls before it. -/
namespace Vessel

open List

def vesselMemDataHugeStart : ℕ := 67*gb

def vesselMemDataHugeSize : ℕ := 16*gb

/-- The range that the descriptor records, and that `pkey_mprotect` is called for, is mapped. -/
def Md.InHugeRegion (d : Md) : Prop :=
  d.chunkNum = 0 ∨ vesselMemDataHugeStart ≤ hugechunkid2ptr d.chunkStart ∧
    hugechunkid2ptr d.chunkStart + d.chunkNum*gb ≤ vesselMemDataHugeStart+vesselMemDataHugeSize

def MemMeta.InHugeRegion (m : MemMeta) : Prop :=
  ∀ i < nmemd, ((m.pool .huge).mdList i).InHugeRegion

/-- A call of `alloc_huge_chunk`; `err` says that `pkey_mprotect` fails. -/
structure HugeCall where
  tid : ℤ
  chunkNum : ℕ
  head : ℕ
  err : Bool

def HugeCall.run (c : HugeCall) (m : MemMeta) : Outcome :=
  allocHugeChunk m c.tid c.chunkNum c.head c.err

/-- The next call can start only if this one returns. -/
def hugeStep (m : MemMeta) (c : HugeCall) : Option MemMeta :=
  match c.run m with
  | .returned _ m => some m
  | .spins _ => none

/-- How many chunks the calls ask for in all. -/
def asked (cs : List HugeCall) : ℕ := (cs.map HugeCall.chunkNum).sum

@[simp] theorem asked_append_singleton (cs : List HugeCall) (c : HugeCall) :
    asked (cs++[c]) = asked cs+c.chunkNum := by simp [asked]

theorem asked_le_of_isPrefix {us cs : List HugeCall} (h : us <+: cs) : asked us ≤ asked cs := by
  obtain ⟨vs,rfl⟩ := h
  simp [asked]

theorem Md.inHugeRegion_iff (d : Md) :
    d.InHugeRegion ↔ d.chunkNum = 0 ∨ d.chunkStart+d.chunkNum ≤ 16 := by
  unfold InHugeRegion vesselMemDataHugeStart vesselMemDataHugeSize hugechunkid2ptr gb
  omega

/-! ### The pool while nothing is released -/

section Pool

variable {b : Bitmap} {n k num start : ℕ}

theorem popcount_of_initial (hk : k ≤ n) (hb : ∀ i < n, b i = decide (i < k)) :
    b.popcount n = k := by
  have hperm : (b.setBits n).Perm (List.range k) := by
    refine (perm_ext_iff_of_nodup Bitmap.nodup_setBits nodup_range).mpr fun i => ?_
    rw [Bitmap.mem_setBits,mem_range]
    constructor
    · rintro ⟨hi,hset⟩
      rw [hb i hi,decide_eq_true_eq] at hset
      exact hset
    · intro hi
      exact ⟨by omega,by rw [hb i (by omega),decide_eq_true_eq]; exact hi⟩
  rw [Bitmap.popcount,hperm.length_eq,length_range]

theorem firstRun_of_initial (hb : ∀ i < n, b i = decide (i < k)) (hnum : 0 < num)
    (h : b.FirstRun n num start) : start = k := by
  have hin := h.inside
  have hge : k ≤ start := by
    have hclear := h.clear start (le_refl _) (by omega)
    rw [hb start (by omega),decide_eq_false_iff_not] at hclear
    omega
  refine le_antisymm (Nat.le_of_not_lt fun hlt => ?_) hge
  apply h.least k hlt
  intro i hi hi'
  rw [hb i (by omega),decide_eq_false_iff_not]
  omega

/-- The descriptors in use. -/
def usedMds (mds : ℕ → Md) : Finset ℕ := (Finset.range nmemd).filter fun i => (mds i).tid ≠ 0

theorem card_usedMds_update (mds : ℕ → Md) (i : ℕ) (d : Md) :
    (usedMds (Function.update mds i d)).card ≤ (usedMds mds).card+1 := by
  have hsub : usedMds (Function.update mds i d) ⊆ insert i (usedMds mds) := by
    intro j hj
    rw [usedMds,Finset.mem_filter] at hj
    rw [Finset.mem_insert,usedMds,Finset.mem_filter]
    by_cases hji : j = i
    · exact Or.inl hji
    · rw [Function.update_of_ne hji] at hj
      exact Or.inr hj
  exact (Finset.card_le_card hsub).trans (Finset.card_insert_le _ _)

theorem hasFreeMd_of_card {pl : Pool} (h : (usedMds pl.mdList).card < nmemd) : pl.HasFreeMd := by
  by_contra hno
  have hall : usedMds pl.mdList = Finset.range nmemd := by
    refine Finset.filter_true_of_mem fun i hi htid => hno ⟨i,Finset.mem_range.mp hi,htid⟩
  rw [hall,Finset.card_range] at h
  omega

/-- After the calls `cs` the first chunks are in use, and every descriptor lies among them. -/
structure Filled (cs : List HugeCall) (m : MemMeta) : Prop where
  bits : ∀ i < vesselHugeChunkNum, (m.pool .huge).chunkAlloc i = decide (i < asked cs)
  le : asked cs ≤ vesselHugeChunkNum
  ends : ∀ i, ((m.pool .huge).mdList i).chunkStart+((m.pool .huge).mdList i).chunkNum ≤ asked cs
  used : (usedMds (m.pool .huge).mdList).card ≤ cs.length
  length : cs.length ≤ asked cs

theorem filled_initial : Filled [] .initial where
  bits _ _ := rfl
  le := Nat.zero_le _
  ends _ := le_refl _
  used := by
    have : usedMds (MemMeta.initial.pool .huge).mdList = ∅ :=
      Finset.filter_false_of_mem fun i _ h => h rfl
    rw [this]
    rfl
  length := le_refl _

section Calls

variable {cs : List HugeCall} {m : MemMeta} {c : HugeCall}

theorem Filled.refused (h : Filled cs m)
    (hbad : c.chunkNum = 0 ∨ vesselHugeChunkNum < asked cs+c.chunkNum) :
    c.run m = .spins m.spinLock := by
  have hcount : (m.spinLock.pool .huge).chunkAlloc.popcount vesselHugeChunkNum = asked cs :=
    popcount_of_initial h.le h.bits
  unfold HugeCall.run allocHugeChunk
  dsimp only
  split
  · rfl
  · rw [if_pos (by omega)]

theorem Filled.recorded (h : Filled cs m) (hpos : 0 < c.chunkNum)
    (hle : asked cs+c.chunkNum ≤ vesselHugeChunkNum) :
    ∃ md m', allocHugeMd m.spinLock c.tid c.head c.chunkNum (asked cs) = some (md,m') ∧
      c.run m = if c.err then .spins m' else
        .returned (some (hugechunkid2ptr (asked cs))) m'.spinUnlock := by
  have hcount : (m.spinLock.pool .huge).chunkAlloc.popcount vesselHugeChunkNum = asked cs :=
    popcount_of_initial h.le h.bits
  unfold HugeCall.run allocHugeChunk
  dsimp only
  rw [if_neg (by omega),if_neg (by omega)]
  cases hscan : scanRun c.chunkNum
      ((m.spinLock.pool .huge).chunkAlloc.clearedBits vesselHugeChunkNum) (-1) 0 with
  | none =>
    refine absurd ⟨hpos,asked cs,hle,fun i hi hi' => ?_⟩ (scanRun_eq_none hscan)
    change (m.pool .huge).chunkAlloc i = false
    rw [h.bits i (by omega),decide_eq_false_iff_not]
    omega
  | some index =>
    obtain ⟨-,-,hrun⟩ := scanRun_eq_some hscan
    dsimp only
    rw [firstRun_of_initial h.bits hpos hrun]
    cases hmd : allocHugeMd m.spinLock c.tid c.head c.chunkNum (asked cs) with
    | none =>
      refine absurd (hasFreeMd_of_card ?_) (allocMdIn_none hmd)
      have := h.used
      have := h.length
      have := h.le
      change (usedMds (m.pool .huge).mdList).card < nmemd
      unfold vesselHugeChunkNum at *
      unfold nmemd
      omega
    | some r =>
      obtain ⟨md,m'⟩ := r
      exact ⟨md,m',rfl,rfl⟩

theorem Filled.call (h : Filled cs m) (hpos : 0 < c.chunkNum)
    (hle : asked cs+c.chunkNum ≤ vesselHugeChunkNum) :
    Filled (cs++[c]) (c.run m).state ∧
      ∃ i < nmemd, ((c.run m).state.pool .huge).mdList i = ⟨c.tid,c.chunkNum,asked cs⟩ := by
  obtain ⟨md,m',hmd,hrun⟩ := h.recorded hpos hle
  obtain ⟨i,hi,-,hmds,hbits,-⟩ := allocMdIn_some hmd
  have hpool : (c.run m).state.pool = m'.pool := by
    rw [hrun]
    cases c.err <;> rfl
  rw [hpool]
  refine ⟨⟨fun j hj => ?_,?_,fun j => ?_,?_,?_⟩,i,hi,by rw [hmds,Function.update_self]⟩
  · rw [hpool,hbits,Bool.eq_iff_iff,Bitmap.setRange_eq_true]
    change _ ∨ (m.pool .huge).chunkAlloc j = true ↔ _
    rw [h.bits j hj,asked_append_singleton,decide_eq_true_eq,decide_eq_true_eq]
    omega
  · rw [asked_append_singleton]
    exact hle
  · rw [hpool,hmds,asked_append_singleton]
    by_cases hji : j = i
    · rw [hji,Function.update_self]
    · rw [Function.update_of_ne hji]
      have := h.ends j
      change ((m.pool .huge).mdList j).chunkStart+((m.pool .huge).mdList j).chunkNum ≤ _
      omega
  · rw [hpool,hmds,length_append]
    have hused : (usedMds (m.spinLock.pool .huge).mdList).card ≤ cs.length := h.used
    exact (card_usedMds_update _ _ _).trans (Nat.succ_le_succ hused)
  · have := h.length
    rw [length_append,asked_append_singleton,length_singleton]
    omega

theorem Filled.step {m' : MemMeta} (h : Filled cs m) (hstep : hugeStep m c = some m') :
    0 < c.chunkNum ∧ asked cs+c.chunkNum ≤ vesselHugeChunkNum ∧ (c.run m).state = m' := by
  unfold hugeStep at hstep
  by_cases hbad : c.chunkNum = 0 ∨ vesselHugeChunkNum < asked cs+c.chunkNum
  · rw [h.refused hbad] at hstep
    simp at hstep
  · refine ⟨by omega,by omega,?_⟩
    cases hrun : c.run m with
    | returned res m₁ =>
      rw [hrun] at hstep
      exact Option.some.inj hstep
    | spins m₁ =>
      rw [hrun] at hstep
      simp at hstep

theorem Filled.run {us : List HugeCall} {m' : MemMeta} (h : Filled us m)
    (hrun : Machine.run hugeStep m cs = some m') : Filled (us++cs) m' := by
  induction cs generalizing us m with
  | nil =>
    obtain rfl := Option.some.inj hrun
    rwa [append_nil]
  | cons c cs ih =>
    obtain ⟨u,hu,hrun⟩ := Option.bind_eq_some_iff.mp hrun
    obtain ⟨hpos,hle,rfl⟩ := h.step hu
    have := ih (h.call hpos hle).1 hrun
    rwa [append_assoc] at this

theorem Filled.inHugeRegion (h : Filled cs m) (hle : asked cs ≤ 16) : m.InHugeRegion := by
  intro i _
  rw [Md.inHugeRegion_iff]
  have := h.ends i
  omega

end Calls

theorem huge_inside_iff {cs : List HugeCall} {m : MemMeta}
    (hrun : Machine.run hugeStep .initial cs = some m) (c : HugeCall) :
    ((∀ us, us <+: cs → ∀ u ∈ Machine.run hugeStep .initial us, u.InHugeRegion) ∧
      (c.run m).state.InHugeRegion) ↔
    asked cs ≤ 16 ∧
      (asked cs+c.chunkNum ≤ 16 ∨ vesselHugeChunkNum < asked cs+c.chunkNum) := by
  have hfilled : Filled cs m := filled_initial.run hrun
  constructor
  · rintro ⟨hall,hlast⟩
    -- a call that records its chunks at the end of those in use
    have hfits : ∀ {us : List HugeCall} {u : MemMeta} {d : HugeCall}, Filled us u →
        0 < d.chunkNum → asked us+d.chunkNum ≤ vesselHugeChunkNum →
        (d.run u).state.InHugeRegion → asked us+d.chunkNum ≤ 16 := by
      intro us u d hu hpos hle hin
      obtain ⟨-,i,hi,heq⟩ := hu.call hpos hle
      have := hin i hi
      rw [heq,Md.inHugeRegion_iff] at this
      dsimp only at this
      omega
    have hbefore : asked cs ≤ 16 := by
      rcases eq_nil_or_concat cs with rfl | ⟨us,d,rfl⟩
      · exact Nat.zero_le _
      rw [concat_eq_append] at hall hrun ⊢
      rw [Machine.run_append] at hrun
      obtain ⟨u,hu,hone⟩ := Option.bind_eq_some_iff.mp hrun
      obtain ⟨m',hd,hend⟩ := Option.bind_eq_some_iff.mp hone
      obtain rfl := Option.some.inj hend
      have hfill : Filled us u := filled_initial.run hu
      obtain ⟨hpos,hle,rfl⟩ := hfill.step hd
      rw [asked_append_singleton]
      refine hfits hfill hpos hle (hall _ (prefix_refl _) _ ?_)
      rw [Machine.run_append,hu]
      exact hone
    refine ⟨hbefore,?_⟩
    rcases Nat.eq_zero_or_pos c.chunkNum with hzero | hpos
    · omega
    · by_cases hle : asked cs+c.chunkNum ≤ vesselHugeChunkNum
      · exact Or.inl (hfits hfilled hpos hle hlast)
      · omega
  · rintro ⟨hbefore,hafter⟩
    refine ⟨fun us hus u hu => ?_,?_⟩
    · exact (filled_initial.run hu).inHugeRegion ((asked_le_of_isPrefix hus).trans hbefore)
    by_cases hbad : c.chunkNum = 0 ∨ vesselHugeChunkNum < asked cs+c.chunkNum
    · rw [hfilled.refused hbad]
      exact hfilled.inHugeRegion hbefore
    · have hcall := (hfilled.call (c:=c) (by omega) (by omega)).1
      exact hcall.inHugeRegion (by rw [asked_append_singleton]; omega)

end Pool

theorem huge_inside_iff_two_calls : ∃ m,
    Machine.run hugeStep .initial [⟨1,4,0,false⟩] = some m ∧
      (HugeCall.run ⟨2,12,1,false⟩ m).state.InHugeRegion := by
  obtain ⟨m,hrun,-⟩ : ∃ m ∈ Machine.run hugeStep .initial [⟨1,4,0,false⟩],
      m.memLock = false := by decide +kernel
  exact ⟨m,hrun,((huge_inside_iff hrun ⟨2,12,1,false⟩).mpr (by decide)).2⟩

/-- A task asks for 17 chunks and gets them, from a region of 16. -/
theorem huge_outside :
    ∃ m, HugeCall.run ⟨1,17,0,false⟩ .initial = .returned (some vesselMemDataHugeStart) m ∧
      ((m.pool .huge).mdList 0).chunkStart = 0 ∧ ((m.pool .huge).mdList 0).chunkNum = 17 ∧
      ¬((m.pool .huge).mdList 0).InHugeRegion := by
  refine ⟨_,rfl,rfl,rfl,?_⟩
  rw [Md.inHugeRegion_iff]
  decide +kernel

end Vessel
