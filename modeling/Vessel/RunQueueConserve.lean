import Mathlib.Data.BitVec
import Mathlib.Tactic.Abel
import Mathlib.Tactic.Ring
import Vessel.RunQueue

/-! Conservation of runnable threads: no operation on the run queues loses or repeats a thread,
the ring never holds more than its size, and the published indices count the queue. -/
namespace Vessel
namespace RunQueue

open Serial Function List Option

theorem rq_fits : Ring.Fits runtimeRqSize := ⟨⟨134217728,by decide⟩,by decide⟩

namespace Kthread

variable {k k' l r : Kthread} {th : ℕ}

/-- The threads of a queue. -/
def threads (k : Kthread) : List ℕ := k.rq.toList runtimeRqSize++k.rqOverflow

/-- `k'` has the threads `ths` more than `k`, and a ring within its bounds. -/
structure Gains (k k' : Kthread) (ths : List ℕ) : Prop where
  threads : k'.threads.Perm (ths++k.threads)
  size : k'.rq.size ≤ runtimeRqSize
  qHead : k'.qHead = k.qHead
  qTail : k'.qTail = k.qTail
  doing : k'.doing = k.doing

theorem gains_pushBack (h : k.rq.size < runtimeRqSize) :
    Gains k { k with rq := k.rq.pushBack runtimeRqSize th } [th] := by
  refine ⟨?_,?_,rfl,rfl,rfl⟩
  · simp only [Kthread.threads,Ring.toList_pushBack rq_fits h,append_assoc]
    exact perm_middle
  · have hlt : runtimeRqSize+1 < 2^32 := by decide
    exact (Ring.size_pushBack (by omega)).trans_le h

theorem gains_overflow (h : k.rq.size ≤ runtimeRqSize) :
    Gains k { k with rqOverflow := k.rqOverflow++[th] } [th] := by
  refine ⟨?_,h,rfl,rfl,rfl⟩
  simp only [Kthread.threads]
  rw [← append_assoc]
  exact perm_append_singleton ..

theorem addTail_gains (th : ℕ) (h : k.rq.size ≤ runtimeRqSize) : Gains k (k.addTail th) [th] := by
  rw [addTail]
  split
  · exact gains_overflow h
  · next hroom => exact gains_pushBack (by omega)

theorem addHead_gains (h : k.rq.size ≤ runtimeRqSize) : Gains k (k.addHead th) [th] := by
  have hlt : runtimeRqSize+1 < 2^32 := by decide
  have hsize : (k.rq.pushFront runtimeRqSize th).size = k.rq.size+1 :=
    Ring.size_pushFront (by omega)
  rw [addHead]
  by_cases hroom : k.rq.size < runtimeRqSize
  · rw [if_neg (by omega)]
    refine ⟨?_,?_,rfl,rfl,rfl⟩
    · simp only [Kthread.threads,Ring.toList_pushFront rq_fits hroom,cons_append,
        nil_append,List.Perm.refl]
    · exact hsize.trans_le hroom
  · rw [if_pos (by omega)]
    obtain ⟨hnew,hold⟩ := Ring.toList_pushFront_full (x:=th) rq_fits (by decide)
      (show k.rq.size = runtimeRqSize by omega)
    refine ⟨?_,?_,rfl,rfl,rfl⟩
    · simp only [Kthread.threads,hnew,hold,cons_append,append_assoc,nil_append,
        List.Perm.refl]
    · have := Ring.size_popBack (r:=k.rq.pushFront runtimeRqSize th) (by omega)
      dsimp only
      omega

theorem addHead_publish : k.publish.addHead th = (k.addHead th).publish := by
  rw [addHead,addHead,apply_ite publish]
  rfl

theorem drainLoop_spec {rq : Ring ℕ} {ths : List ℕ} (h : rq.size ≤ runtimeRqSize) :
    (drainLoop rq ths).1.toList runtimeRqSize++(drainLoop rq ths).2 =
        rq.toList runtimeRqSize++ths ∧
      (drainLoop rq ths).1.size ≤ runtimeRqSize := by
  induction ths generalizing rq with
  | nil => exact ⟨rfl,h⟩
  | cons th ths ih =>
    rw [drainLoop]
    split
    · next hroom =>
      have hlt : runtimeRqSize+1 < 2^32 := by decide
      have hsize : (rq.pushBack runtimeRqSize th).size = rq.size+1 := Ring.size_pushBack (by omega)
      have hbound : (rq.pushBack runtimeRqSize th).size ≤ runtimeRqSize := by omega
      obtain ⟨heq,hle⟩ := ih hbound
      refine ⟨?_,hle⟩
      rw [heq,Ring.toList_pushBack rq_fits hroom,append_assoc]
      rfl
    · exact ⟨rfl,h⟩

theorem threads_drainOverflow (h : k.rq.size ≤ runtimeRqSize) :
    k.drainOverflow.threads = k.threads := (drainLoop_spec h).1

theorem size_drainOverflow (h : k.rq.size ≤ runtimeRqSize) :
    k.drainOverflow.rq.size ≤ runtimeRqSize := (drainLoop_spec h).2

theorem threads_resetRq (h : k.rq.head = k.rq.tail) : k.resetRq.threads = k.threads := by
  rw [threads,threads,Ring.toList_eq_nil h,Ring.toList_eq_nil rfl]
  rfl

theorem size_resetRq : k.resetRq.rq.size ≤ runtimeRqSize := by
  have hzero : k.resetRq.rq.size = 0 := Ring.size_eq_zero_iff.mpr rfl
  rw [hzero]
  exact Nat.zero_le _

theorem scheduleTop_spec (h : k.rq.size ≤ runtimeRqSize) :
    k.scheduleTop.threads = k.threads ∧ k.scheduleTop.rq.size ≤ runtimeRqSize := by
  rw [scheduleTop]
  split
  · next hempty =>
    exact ⟨(threads_resetRq hempty).trans (threads_drainOverflow h),size_resetRq⟩
  · exact ⟨threads_drainOverflow h,size_drainOverflow h⟩

theorem scheduleTop_fields (k : Kthread) : k.scheduleTop.doing = k.doing ∧
    k.scheduleTop.qHead = k.qHead ∧ k.scheduleTop.qTail = k.qTail := by
  rw [scheduleTop]
  split <;> exact ⟨rfl,rfl,rfl⟩

theorem pick_spec (h : k.rq.size ≤ runtimeRqSize) (hne : k.rq.head ≠ k.rq.tail) :
    k.threads = k.next::k.pick.threads ∧ k.pick.rq.size ≤ runtimeRqSize := by
  have hpos : 0 < k.rq.size := Nat.pos_of_ne_zero fun h0 => hne (Ring.size_eq_zero_iff.mp h0)
  have hsize := Ring.size_popFront hpos
  have hle : k.rq.popFront.size ≤ runtimeRqSize := by omega
  refine ⟨?_,size_drainOverflow (k:={ k with rq := k.rq.popFront, qTail := k.qTail+1 }) hle⟩
  have hdrain := threads_drainOverflow (k:={ k with rq := k.rq.popFront, qTail := k.qTail+1 }) hle
  rw [pick,hdrain,threads,threads,Ring.toList_popFront hpos,cons_append,next]

theorem wrapsLt_of_pos {rq : Ring ℕ} (h : rq.size ≤ runtimeRqSize) :
    wrapsLt rq.tail rq.head = true ↔ 0 < rq.size := by
  have hlt : runtimeRqSize < 2^31 := by decide
  rw [wrapsLt,decide_eq_true_eq,BitVec.toInt_eq_toNat_cond]
  rw [Ring.size] at h ⊢
  constructor
  · intro hneg
    split at hneg <;> bv_omega
  · intro hpos
    split <;> bv_omega

theorem drainThreadsLoop_spec (nr : ℕ) {rq : Ring ℕ} (ths : List ℕ)
    (h : rq.size ≤ runtimeRqSize) :
    (drainThreadsLoop nr rq ths).1++((drainThreadsLoop nr rq ths).2.1.toList runtimeRqSize++
        (drainThreadsLoop nr rq ths).2.2) = rq.toList runtimeRqSize++ths ∧
      (drainThreadsLoop nr rq ths).2.1.size ≤ rq.size := by
  induction nr generalizing rq ths with
  | zero => exact ⟨rfl,le_rfl⟩
  | succ nr ih =>
    unfold drainThreadsLoop
    split
    · next hlt =>
      have hpos := (wrapsLt_of_pos h).mp hlt
      have hsize := Ring.size_popFront hpos
      obtain ⟨heq,hle⟩ := ih ths (by omega : rq.popFront.size ≤ runtimeRqSize)
      refine ⟨?_,by dsimp only; omega⟩
      rw [cons_append,heq,Ring.toList_popFront hpos,cons_append]
    · next hge =>
      have hempty : rq.size = 0 := by
        by_contra hne
        exact hge ((wrapsLt_of_pos h).mpr (Nat.pos_of_ne_zero hne))
      have hnil : rq.toList runtimeRqSize = [] := Ring.toList_eq_nil (Ring.size_eq_zero_iff.mp hempty)
      cases ths with
      | nil => exact ⟨rfl,le_rfl⟩
      | cons th ths =>
        obtain ⟨heq,hle⟩ := ih ths h
        refine ⟨?_,hle⟩
        rw [hnil] at heq ⊢
        rw [cons_append,heq]
        rfl

theorem Gains.step {k'' : Kthread} {ths ths' : List ℕ} (h : Gains k k' [th])
    (h' : Gains k' k'' ths') (hperm : (th::ths').Perm ths) : Gains k k'' ths where
  threads := (h'.threads.trans (h.threads.append_left ths')).trans
    (perm_middle.trans (hperm.append_right k.threads))
  size := h'.size
  qHead := h'.qHead.trans h.qHead
  qTail := h'.qTail.trans h.qTail
  doing := h'.doing.trans h.doing

theorem mergeLoop_spec {readyTsc : ℕ → ℕ} {i : ℕ} (rs ls : List ℕ) (hi : i = ls.length+rs.length)
    (h : k.rq.size ≤ runtimeRqSize) : Gains k (mergeLoop readyTsc i rs ls k) (rs++ls) := by
  induction i generalizing rs ls k with
  | zero =>
    obtain ⟨rfl,rfl⟩ : rs = [] ∧ ls = [] := by
      constructor <;> apply length_eq_zero_iff.mp <;> omega
    exact ⟨List.Perm.refl _,h,rfl,rfl,rfl⟩
  | succ i ih =>
    cases rs with
    | nil =>
      cases ls with
      | nil => simp at hi
      | cons l ls =>
        simp only [length_cons,length_nil] at hi
        have hadd := addTail_gains l h
        exact Gains.step hadd (ih [] ls (by simp; omega) hadd.size) (List.Perm.refl _)
    | cons r rs =>
      have hr := addTail_gains r h
      cases ls with
      | nil =>
        simp only [length_cons,length_nil] at hi
        exact Gains.step hr (ih rs [] (by simp; omega) hr.size) (List.Perm.refl _)
      | cons l ls =>
        have hl := addTail_gains l h
        simp only [length_cons] at hi
        rw [mergeLoop]
        split
        · exact Gains.step hr (ih rs (l::ls) (by simp; omega) hr.size) (List.Perm.refl _)
        · exact Gains.step hl (ih (r::rs) ls (by simp; omega) hl.size) perm_middle.symm

/-- What holds of a queue between the steps: the ring is within its bounds, and the published
indices count the threads, but for one whose call is not over. -/
structure Ok (k : Kthread) : Prop where
  size : k.rq.size ≤ runtimeRqSize
  room : ∀ th, k.doing = .pushing th → k.rq.size < runtimeRqSize
  published : k.qHead-k.qTail+(if k.doing = .publishing then 1 else 0) =
    BitVec.ofNat 32 k.threads.length

theorem Ok.rearranged (h : k.Ok) (hidle : k.doing = .nothing) (hdoing : k'.doing = k.doing)
    (hhead : k'.qHead = k.qHead) (htail : k'.qTail = k.qTail) (hthreads : k'.threads = k.threads)
    (hsize : k'.rq.size ≤ runtimeRqSize) : k'.Ok := by
  refine ⟨hsize,fun th hth => ?_,?_⟩
  · rw [hdoing,hidle] at hth
    contradiction
  · rw [hhead,htail,hdoing,hthreads]
    exact h.published

/-- A thread was queued, and its publication is the next step of the owner. -/
theorem Gains.publishing (hg : Gains k k' [th]) (h : k.Ok) (hidle : k.doing ≠ .publishing) :
    Ok { k' with doing := .publishing } := by
  refine ⟨hg.size,nofun,?_⟩
  have hlen : Kthread.threads { k' with doing := .publishing } = k'.threads := rfl
  have hpub := h.published
  rw [if_neg hidle] at hpub
  rw [hlen,hg.threads.length_eq,length_append,length_singleton,hg.qHead,hg.qTail,if_pos rfl]
  bv_omega

theorem Ok.publish (h : k.Ok) (hdoing : k.doing = .publishing) :
    Ok { k.publish with doing := .nothing } := by
  refine ⟨h.size,nofun,?_⟩
  have hlen : threads { k.publish with doing := .nothing } = k.threads := rfl
  have hpub := h.published
  rw [if_pos hdoing] at hpub
  rw [hlen,← hpub,if_neg nofun]
  simp only [Kthread.publish]
  bv_omega

theorem Gains.published (hg : Gains k k' [th]) (h : k.Ok) (hidle : k.doing = .nothing) :
    k'.publish.Ok := by
  have hok := (hg.publishing h (by rw [hidle]; nofun)).publish rfl
  have hdoing : k'.doing = .nothing := hg.doing.trans hidle
  have heq : { k'.publish with doing := .nothing } = k'.publish := by
    rw [← hdoing]
    rfl
  exact heq ▸ hok

theorem Ok.begin (h : k.Ok) (hidle : k.doing = .nothing) (th : ℕ) :
    Ok { k with doing := if runtimeRqSize ≤ k.rq.size then .spilling th else .pushing th } := by
  refine ⟨h.size,fun th' hth => ?_,?_⟩
  · dsimp only at hth ⊢
    split at hth
    · contradiction
    · omega
  · have hpub := h.published
    rw [hidle] at hpub
    dsimp only
    split <;> exact hpub

theorem Ok.scheduleTop (h : k.Ok) (hidle : k.doing = .nothing) : k.scheduleTop.Ok := by
  obtain ⟨hsame,hsize⟩ := scheduleTop_spec h.size
  obtain ⟨hdoing,hhead,htail⟩ := scheduleTop_fields k
  exact h.rearranged hidle hdoing hhead htail hsame hsize

theorem Ok.pick (h : k.Ok) (hidle : k.doing = .nothing) (hne : k.rq.head ≠ k.rq.tail) :
    k.pick.Ok := by
  obtain ⟨hthreads,hsize⟩ := pick_spec h.size hne
  have hdoing : k.pick.doing = .nothing := hidle
  refine ⟨hsize,by simp [hdoing],?_⟩
  have hpub := h.published
  have hhead : k.pick.qHead = k.qHead := rfl
  have htail : k.pick.qTail = k.qTail+1 := rfl
  rw [hthreads,length_cons,hidle] at hpub
  rw [hdoing,hhead,htail]
  rw [if_neg nofun] at hpub ⊢
  bv_omega

theorem published_taken {h t d : BitVec 32} {a b : ℕ} (hp : h-t+d = BitVec.ofNat 32 (a+b)) :
    h-(t+BitVec.ofNat 32 a)+d = BitVec.ofNat 32 b := by
  have hsub : h-(t+BitVec.ofNat 32 a)+d = h-t+d-BitVec.ofNat 32 a := by ring
  rw [hsub,hp,BitVec.ofNat_add]
  ring

theorem published_added {h t d : BitVec 32} {a b : ℕ} (hp : h-t+d = BitVec.ofNat 32 b) :
    h+BitVec.ofNat 32 a-t+d = BitVec.ofNat 32 (a+b) := by
  rw [BitVec.ofNat_add,← hp]
  ring

theorem mergeRunqueues_spec {readyTsc : ℕ → ℕ} {lsize rsize : ℕ} (hl : l.Ok)
    (hidle : l.doing = .nothing) (hempty : l.rq.head = l.rq.tail) (hr : r.Ok) :
    (mergeRunqueues readyTsc l lsize r rsize).1.Ok ∧ (mergeRunqueues readyTsc l lsize r rsize).2.Ok ∧
      ((mergeRunqueues readyTsc l lsize r rsize).1.threads++
        (mergeRunqueues readyTsc l lsize r rsize).2.threads).Perm (l.threads++r.threads) := by
  obtain ⟨hfromR,hsizeR⟩ := drainThreadsLoop_spec rsize r.rqOverflow hr.size
  obtain ⟨hfromL,hsizeL⟩ := drainThreadsLoop_spec lsize l.rqOverflow hl.size
  rw [mergeRunqueues]
  generalize drainThreadsLoop rsize r.rq r.rqOverflow = fromR at *
  generalize drainThreadsLoop lsize l.rq l.rqOverflow = fromL at *
  obtain ⟨rs,rq,rest⟩ := fromR
  obtain ⟨ls,lq,keep⟩ := fromL
  dsimp only at *
  have hrthreads : rs++(rq.toList runtimeRqSize++rest) = r.threads := hfromR
  have hlthreads : ls++keep = l.threads := by
    have hlq : lq.toList runtimeRqSize = [] := Ring.toList_eq_nil (Ring.size_eq_zero_iff.mp (by
      have := Ring.size_eq_zero_iff.mpr hempty
      omega))
    rw [hlq] at hfromL
    exact hfromL
  have hm : Gains { l with rqOverflow := keep }.resetRq
      (mergeLoop readyTsc (ls.length+rs.length) rs ls { l with rqOverflow := keep }.resetRq) (rs++ls) :=
    mergeLoop_spec rs ls rfl size_resetRq
  generalize mergeLoop readyTsc (ls.length+rs.length) rs ls { l with rqOverflow := keep }.resetRq = l' at *
  have hbase : threads (resetRq { l with rqOverflow := keep }) = keep := by
    rw [threads,Ring.toList_eq_nil rfl]
    rfl
  have hperm : l'.threads.Perm (rs++l.threads) := by
    have := hm.threads
    rwa [hbase,append_assoc,hlthreads] at this
  refine ⟨⟨hm.size,?_,?_⟩,⟨hsizeR.trans hr.size,?_,?_⟩,?_⟩
  · intro th hth
    have hdoing : l'.doing = .nothing := hm.doing.trans hidle
    rw [hdoing] at hth
    contradiction
  · have hdoing : l'.doing = .nothing := hm.doing.trans hidle
    have hlen : l'.threads.length = rs.length+l.threads.length :=
      hperm.length_eq.trans length_append
    have hpub := hl.published
    have hhead : l'.qHead = l.qHead := hm.qHead
    have htail : l'.qTail = l.qTail := hm.qTail
    rw [if_neg (by rw [hidle]; nofun)] at hpub
    rw [if_neg (by rw [hdoing]; nofun),hhead,htail]
    change _ = BitVec.ofNat 32 l'.threads.length
    rw [hlen]
    exact published_added hpub
  · exact fun th hth => hsizeR.trans_lt (hr.room th hth)
  · have hlen : r.threads.length = rs.length+(rq.toList runtimeRqSize++rest).length := by
      rw [← hrthreads,length_append]
    have hpub := hr.published
    rw [hlen] at hpub
    exact published_taken hpub
  · change (l'.threads++(rq.toList runtimeRqSize++rest)).Perm _
    rw [← hrthreads]
    refine (hperm.append_right _).trans ?_
    rw [append_assoc]
    exact perm_append_comm_assoc ..

theorem stealWork_spec {readyTsc : ℕ → ℕ} {pending : Bool} {p : Kthread × Kthread} (hl : l.Ok)
    (hidle : l.doing = .nothing) (hr : r.Ok) (hs : stealWork readyTsc l r pending = some p) :
    p.1.Ok ∧ p.2.Ok ∧ (p.1.threads++p.2.threads).Perm (l.threads++r.threads) := by
  rw [stealWork] at hs
  split at hs
  · contradiction
  next hassert =>
    split at hs
    · obtain rfl := some.inj hs
      exact ⟨hl,hr,List.Perm.refl _⟩
    split at hs
    · obtain rfl := some.inj hs
      exact ⟨hl,hr,List.Perm.refl _⟩
    · obtain rfl := some.inj hs
      simp only [not_or,not_not] at hassert
      exact mergeRunqueues_spec hl hidle (hassert.1.trans hassert.2.symm) hr

end Kthread

variable {K : Type} [DecidableEq K] {s s' : Sys K}

namespace Sys

/-- The threads that an event puts into a queue. -/
def madeReady (s : Sys K) : Event K → Multiset ℕ
  | .readyPut k =>
    match (s.ks k).doing with
    | .pushing th => {th}
    | .spilling th => {th}
    | _ => 0
  | .threadReadyLocked _ th _ => {th}
  | .threadReadyHeadLocked _ th _ => {th}
  | .threadReadyHead _ th _ => {th}
  | .threadFinishCede _ th => {th}
  | _ => 0

/-- The threads that an event picks to run. -/
def picked (s : Sys K) : Event K → Multiset ℕ
  | .pick k => {(s.ks k).next}
  | _ => 0

/-- The runnable threads of all queues. -/
def runnable [Fintype K] (s : Sys K) : Multiset ℕ := ∑ k, ((s.ks k).threads : Multiset ℕ)

def Ok (s : Sys K) : Prop := ∀ k, (s.ks k).Ok

omit [DecidableEq K] in
theorem ok_init : (init : Sys K).Ok := by
  intro k
  have hthreads : ((init : Sys K).ks k).threads = [] := by
    rw [Kthread.threads,Ring.toList_eq_nil rfl]
    rfl
  have hsize : ((init : Sys K).ks k).rq.size = 0 := Ring.size_eq_zero_iff.mpr rfl
  refine ⟨hsize.trans_le (Nat.zero_le _),nofun,?_⟩
  rw [hthreads]
  simp [init]

section Update

variable {k : K} {x : Kthread} {th : ℕ} (hks : s'.ks = update s.ks k x)

include hks

theorem Ok.update (h : s.Ok) (hx : x.Ok) : s'.Ok := by
  intro j
  rw [hks]
  by_cases hj : j = k
  · subst hj
    rwa [update_self]
  · rw [update_of_ne hj]
    exact h j

variable [Fintype K]

theorem runnable_update : s'.runnable+(s.ks k).threads = s.runnable+x.threads := by
  have hrest : ∑ j ∈ Finset.univ.erase k, ((s'.ks j).threads : Multiset ℕ) =
      ∑ j ∈ Finset.univ.erase k, ((s.ks j).threads : Multiset ℕ) :=
    Finset.sum_congr rfl fun j hj => by rw [hks,update_of_ne (Finset.ne_of_mem_erase hj)]
  have hk : s'.ks k = x := by rw [hks,update_self]
  rw [runnable,runnable,← Finset.add_sum_erase _ _ (Finset.mem_univ k),
    ← Finset.add_sum_erase (a:=k) Finset.univ (fun j => ((s.ks j).threads : Multiset ℕ))
      (Finset.mem_univ k),hrest,hk]
  abel

end Update

omit [DecidableEq K] in
theorem threadReadyPrepare_ks {th tsc : ℕ} (hs : s.threadReadyPrepare th tsc = some s') :
    s'.ks = s.ks := by
  rw [threadReadyPrepare] at hs
  split at hs
  · contradiction
  · obtain rfl := some.inj hs
    rfl

omit [DecidableEq K] in
theorem inheritTsc_ks {k : K} {th : ℕ} : (s.inheritTsc k th).ks = s.ks := by
  rw [inheritTsc]
  split <;> rfl

/-- What one step keeps, and how it changes the runnable threads. -/
def Conserves [Fintype K] (s s' : Sys K) (e : Event K) : Prop :=
  s'.Ok ∧ s'.runnable+s.picked e = s.runnable+s.madeReady e

section Steps

variable [Fintype K] {k : K} {th : ℕ} {x : Kthread} {e : Event K}

theorem conserves_update (h : s.Ok) (hks : s'.ks = update s.ks k x) (hx : x.Ok)
    (hsum : (x.threads : Multiset ℕ)+s.picked e = (s.ks k).threads+s.madeReady e) :
    Conserves s s' e := by
  refine ⟨h.update hks hx,add_right_cancel (b:=((s.ks k).threads : Multiset ℕ)) ?_⟩
  rw [add_right_comm,runnable_update hks,add_assoc,hsum,add_left_comm,add_comm]

theorem conserves_gains (h : s.Ok) (hks : s'.ks = update s.ks k x) (hx : x.Ok)
    (hperm : x.threads.Perm ([th]++(s.ks k).threads)) (hpicked : s.picked e = 0)
    (hmade : s.madeReady e = {th}) : Conserves s s' e := by
  refine conserves_update h hks hx ?_
  rw [hpicked,hmade,Multiset.coe_eq_coe.mpr hperm,← Multiset.coe_add,add_zero,add_comm]
  rfl

/-- A thread that was queued in a section, with its publication in the same step. -/
theorem conserves_published (h : s.Ok) (hidle : (s.ks k).doing = .nothing)
    (hks : s'.ks = update s.ks k x.publish) (hg : Kthread.Gains (s.ks k) x [th])
    (hpicked : s.picked e = 0) (hmade : s.madeReady e = {th}) : Conserves s s' e :=
  conserves_gains h hks (hg.published (h k) hidle) hg.threads hpicked hmade

/-- A thread that was queued, with its publication still to come. -/
theorem conserves_publishing (h : s.Ok) (hidle : (s.ks k).doing ≠ .publishing)
    (hks : s'.ks = update s.ks k { x with doing := .publishing })
    (hg : Kthread.Gains (s.ks k) x [th]) (hpicked : s.picked e = 0) (hmade : s.madeReady e = {th}) :
    Conserves s s' e :=
  conserves_gains h hks (hg.publishing (h k) hidle) hg.threads hpicked hmade

theorem conserves_same (h : s.Ok) (hks : s'.ks = update s.ks k x) (hx : x.Ok)
    (hsame : x.threads = (s.ks k).threads) (hpicked : s.picked e = 0) (hmade : s.madeReady e = 0) :
    Conserves s s' e :=
  conserves_update h hks hx (by rw [hpicked,hmade,hsame])

theorem conserves_stealWork {l r : K} {pending : Bool} (h : s.Ok)
    (hs : s.step (.stealWork l r pending) = some s') : Conserves s s' (.stealWork l r pending) := by
  obtain ⟨⟨hidle,hne⟩,hs⟩ := ite_none_right_eq_some.mp hs
  obtain ⟨p,hp,rfl⟩ := map_eq_some_iff.mp hs
  obtain ⟨hl,hr,hperm⟩ := Kthread.stealWork_spec (h l) hidle (h r) hp
  have hsum₁ : (s.set l p.1).runnable+(s.ks l).threads = s.runnable+p.1.threads :=
    runnable_update rfl
  have hsum₂ : ((s.set l p.1).set r p.2).runnable+((s.set l p.1).ks r).threads =
      (s.set l p.1).runnable+p.2.threads := runnable_update rfl
  have hkeep : (s.set l p.1).ks r = s.ks r := update_of_ne hne ..
  have hboth : (p.1.threads : Multiset ℕ)+p.2.threads = (s.ks l).threads+(s.ks r).threads := by
    rw [Multiset.coe_add,Multiset.coe_add]
    exact Multiset.coe_eq_coe.mpr hperm
  have hok : (s.set l p.1).Ok := h.update rfl hl
  refine ⟨hok.update rfl hr,?_⟩
  rw [hkeep] at hsum₂
  refine add_right_cancel (b:=((s.ks l).threads : Multiset ℕ)+(s.ks r).threads) ?_
  calc ((s.set l p.1).set r p.2).runnable+0+((s.ks l).threads+(s.ks r).threads)
      = ((s.set l p.1).set r p.2).runnable+(s.ks r).threads+(s.ks l).threads := by abel
    _ = (s.set l p.1).runnable+(s.ks l).threads+p.2.threads := by
      rw [hsum₂]
      abel
    _ = s.runnable+(p.1.threads+p.2.threads) := by
      rw [hsum₁]
      abel
    _ = s.runnable+0+((s.ks l).threads+(s.ks r).threads) := by rw [hboth,add_zero]

theorem step_conserves (h : s.Ok) (hs : s.step e = some s') : Conserves s s' e := by
  cases e with
  | readyBegin k th tsc =>
    obtain ⟨hidle,hs⟩ := ite_none_right_eq_some.mp hs
    obtain ⟨u,hu,rfl⟩ := map_eq_some_iff.mp hs
    exact conserves_same h (by rw [Sys.set,threadReadyPrepare_ks hu]) ((h k).begin hidle th) rfl rfl rfl
  | readyPut k =>
    rw [step] at hs
    split at hs
    · next th hth =>
      obtain rfl := some.inj hs
      exact conserves_publishing h (by rw [hth]; nofun) rfl
        (Kthread.gains_pushBack ((h k).room th hth)) rfl (by rw [madeReady,hth])
    · next th hth =>
      obtain rfl := some.inj hs
      exact conserves_publishing h (by rw [hth]; nofun) rfl
        (Kthread.gains_overflow (h k).size) rfl (by rw [madeReady,hth])
    · contradiction
  | readyPublish k =>
    obtain ⟨hdoing,hs⟩ := ite_none_right_eq_some.mp hs
    obtain rfl := some.inj hs
    exact conserves_same h rfl ((h k).publish hdoing) rfl rfl rfl
  | threadReadyLocked k th tsc =>
    obtain ⟨hidle,hs⟩ := ite_none_right_eq_some.mp hs
    obtain ⟨u,hu,rfl⟩ := map_eq_some_iff.mp hs
    exact conserves_published h hidle (by rw [Sys.set,threadReadyPrepare_ks hu])
      (Kthread.addTail_gains _ (h k).size) rfl rfl
  | threadReadyHeadLocked k th tsc =>
    obtain ⟨hidle,hs⟩ := ite_none_right_eq_some.mp hs
    obtain ⟨u,hu,rfl⟩ := map_eq_some_iff.mp hs
    exact conserves_published h hidle (by rw [Sys.set,inheritTsc_ks,threadReadyPrepare_ks hu])
      (Kthread.addHead_gains (h k).size) rfl rfl
  | threadReadyHead k th tsc =>
    obtain ⟨hidle,hs⟩ := ite_none_right_eq_some.mp hs
    obtain ⟨u,hu,rfl⟩ := map_eq_some_iff.mp hs
    exact conserves_publishing h (by rw [hidle]; nofun)
      (by rw [Sys.set,inheritTsc_ks,threadReadyPrepare_ks hu])
      (Kthread.addHead_gains (h k).size) rfl rfl
  | threadFinishCede k th =>
    obtain ⟨hidle,hs⟩ := ite_none_right_eq_some.mp hs
    obtain rfl := some.inj hs
    refine conserves_published h hidle ?_ (Kthread.addHead_gains (h k).size) rfl rfl
    -- the index is advanced before the thread is queued, in the same section
    rw [← Kthread.addHead_publish]
    rfl
  | scheduleTop k =>
    obtain ⟨hidle,hs⟩ := ite_none_right_eq_some.mp hs
    obtain rfl := some.inj hs
    exact conserves_same h rfl ((h k).scheduleTop hidle) (Kthread.scheduleTop_spec (h k).size).1
      rfl rfl
  | drainOverflow k =>
    obtain ⟨hidle,hs⟩ := ite_none_right_eq_some.mp hs
    obtain rfl := some.inj hs
    have hsame := Kthread.threads_drainOverflow (h k).size
    exact conserves_same h rfl ((h k).rearranged hidle rfl rfl rfl hsame
      (Kthread.size_drainOverflow (h k).size)) hsame rfl rfl
  | pick k =>
    obtain ⟨⟨hidle,hne⟩,hs⟩ := ite_none_right_eq_some.mp hs
    obtain rfl := some.inj hs
    refine conserves_update h rfl ((h k).pick hidle hne) ?_
    rw [(Kthread.pick_spec (h k).size hne).1,← Multiset.cons_coe,← Multiset.singleton_add,add_comm]
    exact (add_zero _).symm
  | stealWork l r pending => exact conserves_stealWork h hs

end Steps

end Sys

/-- In every run over any number of kthreads: a ring holds at most `RUNTIME_RQ_SIZE` threads, the
published indices count the ring and the overflow list modulo `2^32` (one less while a call of the
owner has queued its thread and not published it), and a step changes the runnable threads of all
queues by the thread it makes ready or picks. -/
theorem runqueue_conserved [Fintype K] {es : List (Event K)} (hs : Sys.run es = some s) :
    (∀ k, ((s.ks k).rq.toList runtimeRqSize).length ≤ runtimeRqSize) ∧
    (∀ k, (s.ks k).qHead-(s.ks k).qTail+(if (s.ks k).doing = .publishing then 1 else 0) =
      BitVec.ofNat 32 (((s.ks k).rq.toList runtimeRqSize).length+(s.ks k).rqOverflow.length)) ∧
    ∀ e s', s.step e = some s' → s'.runnable+s.picked e = s.runnable+s.madeReady e := by
  have hok : s.Ok := Machine.run_keeps (fun h hstep => (Sys.step_conserves h hstep).1)
    Sys.ok_init hs
  refine ⟨fun k => ?_,fun k => ?_,fun e s' he => (Sys.step_conserves hok he).2⟩
  · rw [Ring.length_toList]
    exact (hok k).size
  · rw [← length_append]
    exact (hok k).published

/-- One kthread fills its ring and spills, one thread goes to the front, and the other kthread
steals and runs it while the first is in a call. -/
def spillAndSteal (a b : K) : List (Event K) :=
  (List.range 33).flatMap (fun th => [.readyBegin a th 0,.readyPut a,.readyPublish a])++
    [.threadReadyHead a 40 1,.scheduleTop b,.stealWork b a false,.pick b]

theorem runqueue_conserved_spill : ∃ s, Sys.run (spillAndSteal (0 : Fin 2) 1) = some s ∧
    (s.ks 0).doing = .publishing ∧ (s.ks 0).threads.length = 17 ∧ (s.ks 1).threads.length = 16 ∧
    (∀ k, ((s.ks k).rq.toList runtimeRqSize).length ≤ runtimeRqSize) ∧
    (∀ k, (s.ks k).qHead-(s.ks k).qTail+(if (s.ks k).doing = .publishing then 1 else 0) =
      BitVec.ofNat 32 (((s.ks k).rq.toList runtimeRqSize).length+(s.ks k).rqOverflow.length)) ∧
    ∀ e s', s.step e = some s' → s'.runnable+s.picked e = s.runnable+s.madeReady e := by
  obtain ⟨s,hs,hdoing,hzero,hone⟩ : ∃ s ∈ Sys.run (spillAndSteal (0 : Fin 2) 1),
      (s.ks 0).doing = .publishing ∧ (s.ks 0).threads.length = 17 ∧ (s.ks 1).threads.length = 16 := by
    decide +kernel
  exact ⟨s,hs,hdoing,hzero,hone,runqueue_conserved hs⟩

end RunQueue
end Vessel
