import Mathlib.Data.List.Basic
import Mathlib.Tactic.Common
import Vessel.Machine
import Vessel.Parking

/-! The reader-writer mutex of `sync.c` (and of `reentrant_sync.c`, which has the same text).
Each call works on `rwmutex_t` under `waiter_lock` and then, outside of it, makes the threads ready
to which it has handed the lock. -/
namespace Vessel

open List
namespace RwMutex

variable {ι : Type} [DecidableEq ι]

/-- `rwmutex_t`.  Below zero, `count` stands for a writer.  The counts are `int` in the source: as many
as there are readers or waiting readers, which are taken to be fewer than `2^31`. -/
structure RwMutex (ι : Type) where
  count : ℤ
  readWaiterCount : ℤ
  readWaiters : List ι
  writeWaiters : List ι

def rwmutexInit : RwMutex ι := ⟨0,0,[],[]⟩

def rwmutexTryRdlock (m : RwMutex ι) : Option (RwMutex ι) :=
  if m.count ≥ 0 then some { m with count := m.count+1 } else none

def rwmutexTryWrlock (m : RwMutex ι) : Option (RwMutex ι) :=
  if m.count = 0 then some { m with count := -1 } else none

def queueReader (m : RwMutex ι) (myth : ι) : RwMutex ι :=
  { m with readWaiterCount := m.readWaiterCount+1,readWaiters := m.readWaiters++[myth] }

def queueWriter (m : RwMutex ι) (myth : ι) : RwMutex ι :=
  { m with writeWaiters := m.writeWaiters++[myth] }

/-- The threads that an unlock hands the lock to. -/
structure Woken (ι : Type) where
  readers : List ι
  writers : List ι

/-- The section of `rwmutex_unlock`; none if its assertion fails. -/
def rwmutexUnlock (m : RwMutex ι) : Option (RwMutex ι × Woken ι) :=
  if m.count = 0 then none
  else
    let count := if m.count < 0 then 0 else m.count-1
    if count = 0 ∧ m.readWaiterCount > 0 then
      some ({ m with count := m.readWaiterCount,readWaiterCount := 0,readWaiters := [] },
        ⟨m.readWaiters,[]⟩)
    else if count = 0 then
      match m.writeWaiters with
      | [] => some ({ m with count := count },⟨[],[]⟩)
      | th::ws => some ({ m with count := -1,writeWaiters := ws },⟨[],[th]⟩)
    else some ({ m with count := count },⟨[],[]⟩)

/-- A thread runs its own code, is parked, or has left the section of `rwmutex_unlock` and has
still to make these threads ready. -/
inductive Status (ι : Type) where
  | running
  | parked
  | waking (ths : List ι)
deriving DecidableEq

/-- The mutex and its threads; `readers` and `writers` are those that hold the lock, once for each
time they do, from the moment it is theirs. -/
structure Sys (ι : Type) where
  mutex : RwMutex ι
  status : ι → Status ι
  readers : List ι
  writers : List ι

def Sys.init : Sys ι := ⟨rwmutexInit,fun _ => .running,[],[]⟩

inductive Event (ι : Type) where
  | rdlock (i : ι)
  | tryRdlock (i : ι)
  | wrlock (i : ι)
  | tryWrlock (i : ι)
  | unlock (i : ι)
  | ready (i : ι)

def Sys.setStatus (s : Sys ι) (i : ι) (st : Status ι) : Sys ι :=
  { s with status := Function.update s.status i st }

/-- The holder `i` is gone, and the woken threads are holders. -/
def Sys.handOver (s : Sys ι) (i : ι) (m : RwMutex ι) (w : Woken ι) : Sys ι where
  mutex := m
  status := Function.update s.status i (.waking (w.readers++w.writers))
  readers := (if i ∈ s.writers then s.readers else s.readers.erase i)++w.readers
  writers := s.writers.erase i++w.writers

def Sys.holds (s : Sys ι) (i : ι) : Prop := i ∈ s.readers ∨ i ∈ s.writers

instance (s : Sys ι) (i : ι) : Decidable (s.holds i) := inferInstanceAs (Decidable (_ ∨ _))

def Sys.rdlock (s : Sys ι) (i : ι) (wait : Bool) : Sys ι :=
  match rwmutexTryRdlock s.mutex with
  | some m => { s with mutex := m,readers := s.readers++[i] }
  | none =>
    if wait then { s with mutex := queueReader s.mutex i }.setStatus i .parked else s

def Sys.wrlock (s : Sys ι) (i : ι) (wait : Bool) : Sys ι :=
  match rwmutexTryWrlock s.mutex with
  | some m => { s with mutex := m,writers := s.writers++[i] }
  | none =>
    if wait then { s with mutex := queueWriter s.mutex i }.setStatus i .parked else s

/-- Calls are made by running threads, and unlocks by those that hold the lock. -/
def step (s : Sys ι) : Event ι → Option (Sys ι)
  | .rdlock i => if s.status i = .running then some (s.rdlock i true) else none
  | .tryRdlock i => if s.status i = .running then some (s.rdlock i false) else none
  | .wrlock i => if s.status i = .running then some (s.wrlock i true) else none
  | .tryWrlock i => if s.status i = .running then some (s.wrlock i false) else none
  | .unlock i =>
    if s.status i = .running ∧ s.holds i then
      (rwmutexUnlock s.mutex).map fun a => s.handOver i a.1 a.2
    else none
  | .ready i =>
    match s.status i with
    | .waking [] => some (s.setStatus i .running)
    | .waking (th::ths) => some ((s.setStatus i (.waking ths)).setStatus th .running)
    | _ => none

/-- What `count` says about the holders. -/
inductive Counts (count : ℤ) (readers writers : List ι) : Prop where
  | write (w : ι) (hc : count = -1) (hr : readers = []) (hw : writers = [w])
  | read (hc : count = readers.length) (hw : writers = [])

structure Queued (m : RwMutex ι) : Prop where
  readWaiters : m.readWaiters ≠ [] → m.count = -1
  readWaiterCount : m.readWaiterCount = m.readWaiters.length
  writeWaiters : m.writeWaiters ≠ [] → m.count ≠ 0

/-- Where a parked thread is: it waits, or the lock is its own and it is about to be woken. -/
def Sys.Kept (s : Sys ι) (i : ι) : Prop :=
  i ∈ s.mutex.readWaiters ∨ i ∈ s.mutex.writeWaiters ∨
    s.holds i ∧ ∃ j ths,s.status j = .waking ths ∧ i ∈ ths

def Status.wakes : Status ι → List ι
  | .waking ths => ths
  | _ => []

/-- The parked threads are in the queues or have the lock and are about to be woken. -/
structure Sys.Parks (s : Sys ι) (waker : ι → Option ι) : Prop where
  parking : Parking (s.mutex.readWaiters++s.mutex.writeWaiters) (s.status · = .parked)
    (fun j => (s.status j).wakes) waker
  woken : ∀ i j,i ∈ (s.status j).wakes → s.holds i

structure Inv (s : Sys ι) : Prop where
  counts : Counts s.mutex.count s.readers s.writers
  queued : Queued s.mutex
  parks : ∃ waker,s.Parks waker

variable {s t : Sys ι} {m : RwMutex ι} {i j : ι} {w : Woken ι} {e : Event ι}
  {waker : ι → Option ι}

omit [DecidableEq ι] in
theorem inv_init : Inv (Sys.init : Sys ι) where
  counts := .read rfl rfl
  queued := ⟨by simp [Sys.init,rwmutexInit],rfl,by simp [Sys.init,rwmutexInit]⟩
  parks := ⟨fun _ => none,.empty (by simp [Sys.init]) fun _ => rfl,by simp [Sys.init,Status.wakes]⟩

/-! ### The sections -/

omit [DecidableEq ι] in
theorem Counts.rdlock {count : ℤ} {readers writers : List ι} (h : Counts count readers writers)
    (hc : count ≥ 0) : Counts (count+1) (readers++[i]) writers := by
  cases h with
  | write w hc' => omega
  | read hc' hw => exact .read (by simp [hc']) hw

omit [DecidableEq ι] in
theorem Counts.wrlock {count : ℤ} {readers writers : List ι} (h : Counts count readers writers)
    (hc : count = 0) : Counts (-1) readers (writers++[i]) := by
  cases h with
  | write w hc' => omega
  | read hc' hw =>
    have hr : readers = [] := length_eq_zero_iff.mp (by omega)
    exact .write i rfl hr (by simp [hw])

omit [DecidableEq ι] in
theorem rwmutexUnlock_queues {a : RwMutex ι × Woken ι} (h : rwmutexUnlock m = some a) :
    a.2.readers++a.1.readWaiters = m.readWaiters ∧
      a.2.writers++a.1.writeWaiters = m.writeWaiters := by
  unfold rwmutexUnlock at h
  dsimp only at h
  split_ifs at h <;> try split at h
  all_goals cases h; simp [*]

omit [DecidableEq ι] in
/-- A lock with a holder can be unlocked.  Here `readers` are those that stay. -/
theorem rwmutexUnlock_spec {readers : List ι} (hq : Queued m) (h0 : m.count ≠ 0)
    (hleft : (if m.count < 0 then 0 else m.count-1) = (readers.length : ℤ))  :
    ∃ a,rwmutexUnlock m = some a ∧ Counts a.1.count (readers++a.2.readers) a.2.writers ∧
      Queued a.1 := by
  obtain ⟨hr,hrc,hw⟩ := hq
  unfold rwmutexUnlock
  rw [if_neg h0]
  dsimp only
  rw [hleft]
  by_cases hzero : (readers.length : ℤ) = 0
  · have hnil : readers = [] := length_eq_zero_iff.mp (by omega)
    by_cases hpos : m.readWaiterCount > 0
    · rw [if_pos ⟨hzero,hpos⟩]
      refine ⟨_,rfl,.read (by simp [hnil,hrc]) rfl,by simp,by simp,?_⟩
      intro _
      dsimp only
      omega
    · have hnone : m.readWaiters = [] := length_eq_zero_iff.mp (by omega)
      rw [if_neg (by omega),if_pos hzero]
      cases hws : m.writeWaiters with
      | nil => exact ⟨_,rfl,.read (by simp) rfl,by simp [hnone],hrc,by simp⟩
      | cons th ws =>
        exact ⟨_,rfl,.write th rfl (by simp [hnil]) rfl,by simp,hrc,by simp⟩
  · rw [if_neg (by omega),if_neg hzero]
    have hnone : m.readWaiters = [] := by
      by_contra hne
      rw [hr hne] at hleft
      simp at hleft
      omega
    exact ⟨_,rfl,.read (by simp) rfl,by simp [hnone],hrc,fun _ => hzero⟩

theorem Counts.unlock {count : ℤ} {readers writers : List ι} (h : Counts count readers writers)
    (hi : i ∈ readers ∨ i ∈ writers) : count ≠ 0 ∧ writers.erase i = [] ∧
      (if count < 0 then 0 else count-1) =
        ((if i ∈ writers then readers else readers.erase i).length : ℤ) := by
  cases h with
  | write w hc hr hw =>
    subst hc hr hw
    obtain rfl : i = w := by simpa using hi
    simp
  | read hc hw =>
    subst hw
    have hi : i ∈ readers := by simpa using hi
    have hpos := length_pos_of_mem hi
    have hlen := length_erase_of_mem hi
    rw [if_neg not_mem_nil,if_neg (by omega)]
    refine ⟨by omega,rfl,?_⟩
    omega

/-! ### The threads -/

@[grind =] theorem status_setStatus (s : Sys ι) (i k : ι) (st : Status ι) :
    (s.setStatus i st).status k = if k = i then st else s.status k :=
  Function.update_apply s.status i st k

@[grind =] theorem holds_setStatus (s : Sys ι) (i k : ι) (st : Status ι) :
    (s.setStatus i st).holds k ↔ s.holds k :=
  .rfl

@[grind =] theorem status_handOver (s : Sys ι) (i k : ι) :
    (s.handOver i m w).status k =
      if k = i then .waking (w.readers++w.writers) else s.status k :=
  Function.update_apply s.status i _ k

/-- A thread that does not hand on the lock stays a holder, and the woken threads are holders. -/
theorem holds_handOver {k : ι} (h : k ≠ i ∧ s.holds k ∨ k ∈ w.readers++w.writers) :
    (s.handOver i m w).holds k := by
  simp only [Sys.holds,Sys.handOver] at h ⊢
  grind

attribute [local grind] Status.wakes

theorem Sys.Parks.park (h : s.Parks waker) (hi : s.status i = .running)
    (hm : (m.readWaiters++m.writeWaiters).Perm (i::(s.mutex.readWaiters++s.mutex.writeWaiters))) :
    ({ s with mutex := m }.setStatus i .parked).Parks (Function.update waker i none) where
  parking := h.parking.park (i:=i) (by simp [hi]) hm (by grind) (by grind)
  woken k j hk := h.woken k j (by grind)

theorem Sys.Parks.handOver (h : s.Parks waker) (hi : s.status i = .running)
    (hr : w.readers++m.readWaiters = s.mutex.readWaiters)
    (hw : w.writers++m.writeWaiters = s.mutex.writeWaiters) :
    (s.handOver i m w).Parks fun k => if k ∈ w.readers++w.writers then some i else waker k where
  parking := by
    have hperm : (s.mutex.readWaiters++s.mutex.writeWaiters).Perm
        ((w.readers++w.writers)++(m.readWaiters++m.writeWaiters)) := by
      rw [← hr,← hw,append_assoc,append_assoc]
      apply List.Perm.append_left
      rw [← append_assoc,← append_assoc]
      exact perm_append_comm.append_right _
    exact h.parking.take (by simp [hi,Status.wakes]) hperm (by grind) (by grind)
  woken k j hk := by
    have hold := h.woken k j
    have hparked := (h.parking.woken k j).mp
    exact holds_handOver (by grind)

theorem Sys.Parks.ready_nil (h : s.Parks waker) (hi : s.status i = .waking []) :
    (s.setStatus i .running).Parks waker :=
  ⟨h.parking.congr (by grind) (by grind),fun k j hk => h.woken k j (by grind)⟩

theorem Sys.Parks.ready_cons {th : ι} {ths : List ι} (h : s.Parks waker)
    (hi : s.status i = .waking (th::ths)) :
    ((s.setStatus i (.waking ths)).setStatus th .running).Parks waker := by
  have hwi : (s.status i).wakes = th::ths := by rw [hi,Status.wakes]
  have hth : s.status th = .parked := ((h.parking.woken th i).mp (by simp [hwi])).1
  refine ⟨h.parking.ready hwi (by grind) (by grind),fun k j hk => ?_⟩
  have hold := h.woken k j
  grind

theorem Inv.rdlock (h : Inv s) (hi : s.status i = .running) (wait : Bool) :
    Inv (s.rdlock i wait) := by
  obtain ⟨waker,hp⟩ := h.parks
  unfold Sys.rdlock rwmutexTryRdlock
  by_cases hc : s.mutex.count ≥ 0
  · rw [if_pos hc]
    refine ⟨h.counts.rdlock hc,?_,waker,hp.parking,?_⟩
    · have hr := h.queued.readWaiters
      refine ⟨fun hne => ?_,h.queued.readWaiterCount,fun _ => ?_⟩
      · have := hr hne
        omega
      · dsimp only
        omega
    · exact fun k j hk => (hp.woken k j hk).imp_left (mem_append_left _)
  · have hneg : s.mutex.count = -1 := by
      cases h.counts with
      | write w hc' => exact hc'
      | read hc' => omega
    rw [if_neg hc]
    dsimp only
    split_ifs with hwait
    · refine ⟨h.counts,?_,_,hp.park hi ?_⟩
      · refine ⟨fun _ => hneg,?_,h.queued.writeWaiters⟩
        simp [Sys.setStatus,queueReader,h.queued.readWaiterCount]
      · simp only [queueReader,append_assoc,singleton_append]
        exact perm_middle
    · exact h

theorem Inv.wrlock (h : Inv s) (hi : s.status i = .running) (wait : Bool) :
    Inv (s.wrlock i wait) := by
  obtain ⟨waker,hp⟩ := h.parks
  unfold Sys.wrlock rwmutexTryWrlock
  by_cases hc : s.mutex.count = 0
  · rw [if_pos hc]
    refine ⟨h.counts.wrlock hc,?_,waker,hp.parking,?_⟩
    · exact ⟨fun _ => rfl,h.queued.readWaiterCount,fun _ => by simp⟩
    · exact fun k j hk => (hp.woken k j hk).imp_right (mem_append_left _)
  · rw [if_neg hc]
    dsimp only
    split_ifs with hwait
    · refine ⟨h.counts,?_,_,hp.park hi ?_⟩
      · exact ⟨h.queued.readWaiters,h.queued.readWaiterCount,fun _ => hc⟩
      · simp only [queueWriter]
        rw [← append_assoc]
        exact perm_append_singleton i _
    · exact h

theorem Inv.unlock (h : Inv s) (hi : s.holds i) : ∃ a,rwmutexUnlock s.mutex = some a ∧
    Counts a.1.count (s.handOver i a.1 a.2).readers (s.handOver i a.1 a.2).writers ∧
      Queued a.1 := by
  obtain ⟨h0,hw,hleft⟩ := h.counts.unlock hi
  obtain ⟨a,ha,hcount,hq⟩ := rwmutexUnlock_spec h.queued h0 hleft
  exact ⟨a,ha,by simpa [Sys.handOver,hw] using hcount,hq⟩

theorem Inv.step (h : Inv s) (hstep : step s e = some t) : Inv t := by
  cases e with
  | rdlock i | tryRdlock i =>
    simp only [RwMutex.step] at hstep
    split_ifs at hstep with hi
    cases hstep
    exact h.rdlock hi _
  | wrlock i | tryWrlock i =>
    simp only [RwMutex.step] at hstep
    split_ifs at hstep with hi
    cases hstep
    exact h.wrlock hi _
  | unlock i =>
    simp only [RwMutex.step] at hstep
    split_ifs at hstep with hi
    obtain ⟨a,ha,hcount,hq⟩ := h.unlock hi.2
    obtain ⟨hr,hw⟩ := rwmutexUnlock_queues ha
    rw [ha] at hstep
    cases hstep
    obtain ⟨waker,hp⟩ := h.parks
    exact ⟨hcount,hq,_,hp.handOver hi.1 hr hw⟩
  | ready i =>
    obtain ⟨waker,hp⟩ := h.parks
    simp only [RwMutex.step] at hstep
    split at hstep <;> cases hstep
    · exact ⟨h.counts,h.queued,waker,hp.ready_nil ‹_›⟩
    · exact ⟨h.counts,h.queued,_,hp.ready_cons ‹_›⟩

omit [DecidableEq ι] in
theorem Sys.Parks.kept (h : s.Parks waker) (hi : s.status i = .parked) : s.Kept i := by
  rcases h.parking.kept hi with hwait | ⟨j,hj⟩
  · exact or_assoc.mp (.inl (mem_append.mp hwait))
  · cases hst : s.status j with
    | waking ths => exact .inr (.inr ⟨h.woken i j hj,j,ths,hst,by simpa [hst,Status.wakes] using hj⟩)
    | running | parked => simp [hst,Status.wakes] at hj

/-- In every state of every run `count` says who holds the lock, the queues are as they should be,
no parked thread is lost, and the assertion of `rwmutex_unlock` holds. -/
theorem rwmutex_consistent {es : List (Event ι)} (h : Machine.run step Sys.init es = some t) :
    (t.mutex.count = -1 ↔ t.readers = [] ∧ ∃ w,t.writers = [w]) ∧
    (t.mutex.count ≠ -1 → t.writers = [] ∧ t.mutex.count = t.readers.length) ∧
    (t.mutex.readWaiters ≠ [] → t.mutex.count = -1) ∧
    t.mutex.readWaiterCount = t.mutex.readWaiters.length ∧
    (t.mutex.readWaiters ≠ [] ∨ t.mutex.writeWaiters ≠ [] → t.mutex.count ≠ 0) ∧
    (∀ i,t.status i = .parked → t.Kept i) ∧
    (∀ i,t.holds i → (rwmutexUnlock t.mutex).isSome) := by
  have hinv : Inv t := Machine.run_keeps Inv.step inv_init h
  obtain ⟨waker,hp⟩ := hinv.parks
  have hq := hinv.queued
  refine ⟨?_,?_,hq.readWaiters,hq.readWaiterCount,?_,fun i hi => hp.kept hi,?_⟩
  · cases hinv.counts with
    | write w hc hr hw => simp [hc,hr,hw]
    | read hc hw =>
      simp only [hw,nil_eq,cons_ne_nil,exists_false,and_false,iff_false]
      omega
  · intro hne
    cases hinv.counts with
    | write w hc => exact absurd hc hne
    | read hc hw => exact ⟨hw,hc⟩
  · intro hwait
    rcases hwait with hr | hw
    · simp [hq.readWaiters hr]
    · exact hq.writeWaiters hw
  · intro i hi
    obtain ⟨a,ha,-⟩ := hinv.unlock hi
    simp [ha]

/-- A writer unlocks while a reader and a writer wait: the reader gets the lock and is woken. -/
theorem rwmutex_consistent_three :
    ∃ t ∈ Machine.run step (Sys.init : Sys (Fin 3))
        [.wrlock 0,.rdlock 1,.wrlock 2,.unlock 0,.ready 0],
      t.mutex.count = 1 ∧ t.readers = [1] ∧ t.mutex.writeWaiters = [2] ∧ t.Kept 2 := by
  obtain ⟨t,ht,hc,hr,hw,hp⟩ : ∃ t ∈ Machine.run step (Sys.init : Sys (Fin 3))
      [.wrlock 0,.rdlock 1,.wrlock 2,.unlock 0,.ready 0],
      t.mutex.count = 1 ∧ t.readers = [1] ∧ t.mutex.writeWaiters = [2] ∧
        t.status 2 = .parked := by decide +kernel
  exact ⟨t,ht,hc,hr,hw,(rwmutex_consistent ht).2.2.2.2.2.1 2 hp⟩

end RwMutex
end Vessel
