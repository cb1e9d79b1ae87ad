import Mathlib.Data.List.Nodup
import Mathlib.Tactic.Common
import Vessel.Machine
import Vessel.Mutex

/-! The condition variable of `sync.c` with its mutex.  `condvar_wait` gives the mutex back while it
has the spin lock of the condition variable, and gives that one back only when it is parked in the
queue; once woken it takes the mutex again. -/
namespace Vessel
namespace Condvar

open Mutex (waiterFlag)

variable {ι : Type} [DecidableEq ι]

/-- Who called the mutex: the program, or `condvar_wait`. -/
inductive Caller where
  | user
  | wait
deriving DecidableEq, Repr

inductive Pos (ι : Type) where
  | running
  | locking (k : Caller)
  | lockSlow (k : Caller)
  | claimed (k : Caller)
  | mutexParked (k : Caller)
  | unlocking (k : Caller)
  | unlockSlow (k : Caller)
  | handing (k : Caller) (th : ι)
  | waitCalled
  | enqueueing
  | condParked
  | readying (ths : List ι)
deriving DecidableEq

/-- `mutex_t` and `condvar_t`, where the threads are, and which of them have the mutex.  `enqueued`,
`taken` and `woken` are the threads that have joined the queue of the condition variable, that
signals and broadcasts have taken off it, and that have been made ready again. -/
structure Sys (ι : Type) where
  held : BitVec 32
  mutexLock : Bool
  mutexWaiters : List ι
  condLock : Option ι
  condWaiters : List ι
  pos : ι → Pos ι
  mine : ι → Bool
  enqueued : List ι
  taken : List ι
  woken : List ι

def Sys.init : Sys ι where
  held := 0
  mutexLock := false
  mutexWaiters := []
  condLock := none
  condWaiters := []
  pos := fun _ => .running
  mine := fun _ => false
  enqueued := []
  taken := []
  woken := []

def Sys.setPos (s : Sys ι) (i : ι) (p : Pos ι) : Sys ι :=
  { s with pos := Function.update s.pos i p }

def Sys.gain (s : Sys ι) (i : ι) : Sys ι := { s with mine := Function.update s.mine i true }

def Sys.lose (s : Sys ι) (i : ι) : Sys ι := { s with mine := Function.update s.mine i false }

/-- Where a call of `mutex_unlock` goes on. -/
def Caller.afterUnlock : Caller → Pos ι
  | .user => .running
  | .wait => .enqueueing

/-- The next step of a call.  A step has one access to `held`, or is a section under one of the
spin locks; none if it has to wait. -/
def Sys.act (s : Sys ι) (i : ι) : Option (Sys ι) :=
  match s.pos i with
  | .running | .mutexParked _ | .condParked => none
  | .locking k =>
    if s.held = 0 then some (({ s with held := 1 }.gain i).setPos i .running)
    else some (s.setPos i (.lockSlow k))
  | .lockSlow k =>
    if s.mutexLock then none
    else if s.held = 0 then
      some ({ s with held := s.held ||| waiterFlag,mutexLock := true }.setPos i (.claimed k))
    else
      some ({ s with
        held := s.held ||| waiterFlag
        mutexWaiters := s.mutexWaiters++[i] }.setPos i (.mutexParked k))
  | .claimed _ => some (({ s with held := 1,mutexLock := false }.gain i).setPos i .running)
  | .unlocking k =>
    if s.held = 1 then some (({ s with held := 0 }.lose i).setPos i k.afterUnlock)
    else some (s.setPos i (.unlockSlow k))
  | .unlockSlow k =>
    if s.mutexLock then none
    else
      match s.mutexWaiters with
      | [] => some (({ s with held := 0 }.lose i).setPos i k.afterUnlock)
      | th::ws =>
        some ((({ s with mutexWaiters := ws }.lose i).gain th).setPos i (.handing k th))
  | .handing k th => some ((s.setPos th .running).setPos i k.afterUnlock)
  | .waitCalled =>
    match s.condLock with
    | some _ => none
    | none => some ({ s with condLock := some i }.setPos i (.unlocking .wait))
  | .enqueueing =>
    some ({ s with
      condWaiters := s.condWaiters++[i]
      condLock := none
      enqueued := s.enqueued++[i] }.setPos i .condParked)
  | .readying [] => some (s.setPos i .running)
  | .readying (th::ths) =>
    some (({ s with woken := s.woken++[th] }.setPos th (.locking .wait)).setPos i (.readying ths))

inductive Event (ι : Type) where
  | lock (i : ι)
  | tryLock (i : ι)
  | unlock (i : ι)
  | wait (i : ι)
  | signal (i : ι)
  | broadcast (i : ι)
  | act (i : ι)

/-- The section of `condvar_signal` or `condvar_broadcast`, which takes `ths` off the queue. -/
def Sys.take (s : Sys ι) (i : ι) (ths rest : List ι) : Sys ι :=
  { s with condWaiters := rest,taken := s.taken++ths }.setPos i (.readying ths)

/-- Calls are made by running threads: `mutex_lock` by one that has not got the mutex,
`mutex_unlock` and `condvar_wait` by one that has. -/
def step (s : Sys ι) : Event ι → Option (Sys ι)
  | .lock i =>
    if s.pos i = .running ∧ s.mine i = false then some (s.setPos i (.locking .user)) else none
  | .tryLock i =>
    if s.pos i = .running then
      if s.held = 0 then some ({ s with held := 1 }.gain i) else some s
    else none
  | .unlock i =>
    if s.pos i = .running ∧ s.mine i then some (s.setPos i (.unlocking .user)) else none
  -- `assert_mutex_held`
  | .wait i =>
    if s.pos i = .running ∧ s.mine i ∧ s.held ≠ 0 then some (s.setPos i .waitCalled) else none
  | .signal i =>
    if s.pos i = .running ∧ s.condLock = none then
      some (s.take i (s.condWaiters.take 1) (s.condWaiters.drop 1))
    else none
  | .broadcast i =>
    if s.pos i = .running ∧ s.condLock = none then some (s.take i s.condWaiters []) else none
  | .act i => s.act i

/-- The thread is in `condvar_wait`. -/
def Pos.Waits : Pos ι → Prop
  | .waitCalled | .enqueueing | .condParked => True
  | .locking .wait | .lockSlow .wait | .claimed .wait | .mutexParked .wait => True
  | .unlocking .wait | .unlockSlow .wait | .handing .wait _ => True
  | _ => False

/-- It has given the mutex back and has not been made ready. -/
def Pos.Released : Pos ι → Prop
  | .handing .wait _ | .enqueueing | .condParked => True
  | _ => False

def Pos.Signals : Pos ι → ι → Prop
  | .readying ths,i => i ∈ ths
  | _,_ => False

/-- What the condition variable promises. -/
structure Sound (s : Sys ι) : Prop where
  /-- Two threads never have the mutex at a time. -/
  exclusive : ∀ i j,s.mine i → s.mine j → i = j
  /-- When a signal can look at the queue, a thread that has given the mutex back is in it, unless
  an earlier signal is about to wake it. -/
  queued : s.condLock = none → ∀ i,(s.pos i).Released →
    i ∈ s.condWaiters ∨ ∃ j,(s.pos j).Signals i
  /-- Signals take the threads in the order in which they came. -/
  fifo : s.enqueued = s.taken++s.condWaiters
  /-- A thread has been woken once for each time it was queued, except for the present one. -/
  once : ∀ i,s.enqueued.count i = s.woken.count i+if s.pos i = .condParked then 1 else 0
  /-- Each of its wake-ups belongs to one signal or broadcast that took it off the queue. -/
  bySignal : ∀ i,s.taken.count i =
    s.woken.count i+if s.pos i = .condParked ∧ i ∉ s.condWaiters then 1 else 0
  /-- `condvar_wait` returns to a thread that has the mutex. -/
  returns : ∀ e t,step s e = some t → ∀ i,(s.pos i).Waits → t.pos i = .running → t.mine i

/-! ### The invariant -/

@[grind] def Pos.MutexParked : Pos ι → Prop
  | .mutexParked _ => True
  | _ => False

@[grind] def Pos.Claims : Pos ι → Prop
  | .claimed _ => True
  | _ => False

@[grind] def Pos.hands : Pos ι → Option ι
  | .handing _ th => some th
  | _ => none

@[grind] def Pos.readies : Pos ι → List ι
  | .readying ths => ths
  | _ => []

/-- The thread has the spin lock of the condition variable. -/
@[grind] def Pos.CondLocks : Pos ι → Prop
  | .unlocking .wait | .unlockSlow .wait | .handing .wait _ | .enqueueing => True
  | _ => False

/-- Only a thread that has the mutex gets here. -/
@[grind] def Pos.NeedsMutex : Pos ι → Prop
  | .unlocking _ | .unlockSlow _ | .waitCalled => True
  | _ => False

/-- A thread that is here has not got the mutex. -/
@[grind] def Pos.WantsMutex : Pos ι → Prop
  | .locking _ | .lockSlow _ | .claimed _ | .handing _ _ | .enqueueing | .condParked => True
  | _ => False

/-- What the mutex is to thread `i`: `o` has it, `c` claims it, and `w` is about to wake the thread
that has it. -/
@[grind cases] structure MutexLocal (s : Sys ι) (o c w : Option ι) (i : ι) : Prop where
  mine : s.mine i = true ↔ o = some i
  claims : (s.pos i).Claims ↔ c = some i
  needs : (s.pos i).NeedsMutex → o = some i
  wants : (s.pos i).WantsMutex → o ≠ some i
  queued : i ∈ s.mutexWaiters ↔ (s.pos i).MutexParked ∧ o ≠ some i
  hands : ∀ th,(s.pos i).hands = some th ↔ w = some i ∧ o = some th
  handed : o = some i → ((s.pos i).MutexParked ↔ w ≠ none)

/-- The mutex itself. -/
@[grind cases] structure MutexShared (s : Sys ι) (o c w : Option ι) : Prop where
  held : s.held = 0 ↔ o = none ∧ c = none
  one : s.held = 1 → s.mutexWaiters = []
  free : o = none → s.mutexWaiters = [] ∧ w = none
  claimed : c ≠ none → o = none
  spin : s.mutexLock = c.isSome
  nodup : s.mutexWaiters.Nodup

structure MutexInv (s : Sys ι) (o c w : Option ι) : Prop where
  shared : MutexShared s o c w
  thread : ∀ i,MutexLocal s o c w i

/-- What the condition variable is to thread `i`; `waker` gives the thread that is about to wake a
thread. -/
@[grind cases] structure CondLocal (s : Sys ι) (waker : ι → Option ι) (i : ι) : Prop where
  lock : (s.pos i).CondLocks ↔ s.condLock = some i
  waits : i ∈ s.condWaiters ↔ s.pos i = .condParked ∧ waker i = none
  readies : ∀ th,th ∈ (s.pos i).readies ↔ waker th = some i
  nodup : (s.pos i).readies.Nodup
  parked : waker i ≠ none → s.pos i = .condParked
  once : s.enqueued.count i = s.woken.count i+if s.pos i = .condParked then 1 else 0

structure CondInv (s : Sys ι) (waker : ι → Option ι) : Prop where
  nodup : s.condWaiters.Nodup
  fifo : s.enqueued = s.taken++s.condWaiters
  thread : ∀ i,CondLocal s waker i

structure Inv (s : Sys ι) : Prop where
  mutex : ∃ o c w,MutexInv s o c w
  cond : ∃ waker,CondInv s waker

variable {s t : Sys ι} {i j th : ι} {ths rest : List ι} {e : Event ι} {k : Caller}
  {o c w : Option ι} {waker : ι → Option ι}

theorem inv_init : Inv (Sys.init : Sys ι) where
  mutex := by
    refine ⟨none,none,none,?_,fun i => ?_⟩ <;> constructor
    all_goals simp [Sys.init,Pos.Claims,Pos.NeedsMutex,Pos.WantsMutex,Pos.MutexParked,Pos.hands]
  cond := by
    refine ⟨fun _ => none,List.nodup_nil,rfl,fun i => ?_⟩
    constructor <;> simp [Sys.init,Pos.CondLocks,Pos.readies]

attribute [local grind =] Function.update_apply

/-! ### The mutex -/

omit [DecidableEq ι] in
theorem Pos.MutexParked.eq {p : Pos ι} (h : p.MutexParked) : ∃ k,p = .mutexParked k := by
  cases p with
  | mutexParked k => exact ⟨k,rfl⟩
  | _ => exact h.elim

namespace MutexInv

omit [DecidableEq ι] in
theorem goesTo (h : MutexInv s o c w) (o' c' w' : Option ι) (hshared : MutexShared t o' c' w')
    (hthread : ∀ j,MutexLocal s o c w j → MutexLocal t o' c' w' j) : ∃ o c w,MutexInv t o c w :=
  ⟨o',c',w',hshared,fun j => hthread j (h.thread j)⟩

omit [DecidableEq ι] in
theorem handedTo (h : MutexInv s o c w) (hp : s.pos i = .handing k th) :
    o = some th ∧ w = some i ∧ (s.pos th).MutexParked ∧ th ≠ i := by
  have hi := h.thread i
  have hth := h.thread th
  grind -ring -order -linarith

theorem flagged_ne (v : BitVec 32) : v ||| waiterFlag ≠ 0 ∧ v ||| waiterFlag ≠ 1 := by
  refine ⟨fun h => ?_,fun h => ?_⟩
  · have h31 := congrArg (BitVec.getLsbD · 31) h
    simp [waiterFlag] at h31
  · have h31 := congrArg (BitVec.getLsbD · 31) h
    simp [waiterFlag] at h31

theorem act (h : MutexInv s o c w) (hready : ∀ {th ths},s.pos i = .readying (th::ths) →
    s.pos th = .condParked) (ht : s.act i = some t) : ∃ o c w,MutexInv t o c w := by
  have hs := h.shared
  have hi := h.thread i
  rw [Sys.act] at ht
  cases hp : s.pos i with simp only [hp,Sys.setPos,Sys.gain,Sys.lose] at ht
  | running | mutexParked | condParked => cases ht
  | locking k =>
    split_ifs at ht with h0 <;> cases ht
    · refine h.goesTo (some i) none none ?_ (fun j hj => ?_) <;> constructor
      all_goals grind -ring -order -linarith
    · refine h.goesTo o c w ?_ (fun j hj => ?_) <;> constructor
      all_goals grind -ring -order -linarith
  | lockSlow k =>
    obtain ⟨hzero,hone⟩ := flagged_ne s.held
    split_ifs at ht with hl h0 <;> cases ht
    · refine h.goesTo none (some i) none ?_ (fun j hj => ?_) <;> constructor
      all_goals grind -ring -order -linarith
    · have hc : c = none := by simpa [hl] using hs.spin
      have hnot : i ∉ s.mutexWaiters := by grind -ring -order -linarith
      refine h.goesTo o c w ?_ (fun j hj => ?_) <;> constructor
      all_goals grind -ring -order -linarith [List.nodup_append]
  | claimed k =>
    cases ht
    refine h.goesTo (some i) none none ?_ (fun j hj => ?_) <;> constructor
    all_goals grind -ring -order -linarith
  | unlocking k =>
    split_ifs at ht with h1 <;> cases ht
    · refine h.goesTo none none none ?_ (fun j hj => ?_) <;> cases k <;> constructor
      all_goals grind -ring -order -linarith [Caller.afterUnlock]
    · refine h.goesTo o c w ?_ (fun j hj => ?_) <;> constructor
      all_goals grind -ring -order -linarith
  | unlockSlow k =>
    split_ifs at ht with hl
    split at ht <;> cases ht
    · refine h.goesTo none none none ?_ (fun j hj => ?_) <;> cases k <;> constructor
      all_goals grind -ring -order -linarith [Caller.afterUnlock]
    next th ws hw =>
      have hth := h.thread th
      obtain ⟨k',hpth⟩ := (hth.queued.mp (by simp [hw])).1.eq
      obtain ⟨hnot,-⟩ := List.nodup_cons.mp (hw ▸ hs.nodup)
      refine h.goesTo (some th) c (some i) ?_ (fun j hj => ?_) <;> constructor
      all_goals grind -ring -order -linarith
  | handing k th =>
    cases ht
    obtain ⟨ho,hw,hth,hne⟩ := h.handedTo hp
    refine h.goesTo o c none ?_ (fun j hj => ?_) <;> cases k <;> constructor
    all_goals grind -ring -order -linarith [Caller.afterUnlock]
  | waitCalled =>
    split at ht <;> cases ht
    refine h.goesTo o c w ?_ (fun j hj => ?_) <;> constructor
    all_goals grind -ring -order -linarith
  | enqueueing =>
    cases ht
    refine h.goesTo o c w ?_ (fun j hj => ?_) <;> constructor
    all_goals grind -ring -order -linarith
  | readying ths =>
    cases ths <;> cases ht
    · refine h.goesTo o c w ?_ (fun j hj => ?_) <;> constructor
      all_goals grind -ring -order -linarith
    next th ths =>
      have hth := hready hp
      refine h.goesTo o c w ?_ (fun j hj => ?_) <;> constructor
      all_goals grind -ring -order -linarith

theorem take (h : MutexInv s o c w) (hp : s.pos i = .running) :
    ∃ o c w,MutexInv (s.take i ths rest) o c w := by
  obtain ⟨hheld,hone,hfree,hclaimed,hspin,hnodup⟩ := h.shared
  exact h.goesTo o c w ⟨hheld,hone,hfree,hclaimed,hspin,hnodup⟩
    fun j hj => by constructor <;> simp only [Sys.take,Sys.setPos] <;> grind -ring -order -linarith

end MutexInv

/-! ### The condition variable -/

namespace CondInv

theorem goesTo (h : CondInv s waker) (waker' : ι → Option ι) (hnodup : t.condWaiters.Nodup)
    (hfifo : t.enqueued = t.taken++t.condWaiters)
    (hthread : ∀ j,CondLocal s waker j → CondLocal t waker' j) : ∃ waker,CondInv t waker :=
  ⟨waker',hnodup,hfifo,fun j => hthread j (h.thread j)⟩

theorem readied (h : CondInv s waker) (hp : s.pos i = .readying (th::ths)) :
    s.pos th = .condParked ∧ th ≠ i := by
  have hi := h.thread i
  have hth := h.thread th
  grind -ring -order -linarith

theorem take (h : CondInv s waker) (hp : s.pos i = .running) (hw : s.condWaiters = ths++rest) :
    ∃ waker,CondInv (s.take i ths rest) waker := by
  have hi := h.thread i
  obtain ⟨hths,hrest,hdisj⟩ := List.nodup_append.mp (hw ▸ h.nodup)
  have hnone : ∀ x ∈ ths,waker x = none := fun x hx => ((h.thread x).waits.mp (by simp [hw,hx])).2
  refine h.goesTo (fun j => if j ∈ ths then some i else waker j) hrest ?_ fun j hj => ?_
  · simp [Sys.take,Sys.setPos,h.fifo,hw]
  · have hdj := hdisj j
    constructor <;> simp only [Sys.take,Sys.setPos] <;> grind -ring -order -linarith

theorem act (h : CondInv s waker) (hm : MutexInv s o c w) (ht : s.act i = some t) :
    ∃ waker,CondInv t waker := by
  have hnodup := h.nodup
  have hfifo := h.fifo
  have hi := h.thread i
  rw [Sys.act] at ht
  cases hp : s.pos i with simp only [hp,Sys.setPos,Sys.gain,Sys.lose] at ht
  | running | mutexParked | condParked => cases ht
  | locking k | lockSlow k | claimed k =>
    repeat' split at ht
    all_goals cases ht
    all_goals exact h.goesTo waker hnodup hfifo
                fun j hj => by constructor <;> grind -ring -order -linarith
  | unlocking k | unlockSlow k =>
    repeat' split at ht
    all_goals cases ht
    all_goals
      refine h.goesTo waker hnodup hfifo fun j hj => ?_
      cases k <;> constructor <;> grind -ring -order -linarith [Caller.afterUnlock]
  | handing k th =>
    cases ht
    obtain ⟨-,-,hth,hne⟩ := hm.handedTo hp
    obtain ⟨k',hpth⟩ := hth.eq
    exact h.goesTo waker hnodup hfifo fun j hj => by
      cases k <;> constructor <;> grind -ring -order -linarith [Caller.afterUnlock]
  | waitCalled =>
    split at ht <;> cases ht
    exact h.goesTo waker hnodup hfifo fun j hj => by constructor <;> grind -ring -order -linarith
  | enqueueing =>
    cases ht
    refine h.goesTo waker ?_ (by simp [hfifo])
      fun j hj => by constructor <;> grind -ring -order -linarith
    exact List.nodup_append.mpr ⟨hnodup,List.nodup_singleton i,by grind -ring -order -linarith⟩
  | readying ths =>
    cases ths <;> cases ht
    · exact h.goesTo waker hnodup hfifo fun j hj => by constructor <;> grind -ring -order -linarith
    next th ths =>
      obtain ⟨hth,hne⟩ := h.readied hp
      exact h.goesTo (Function.update waker th none) hnodup hfifo
        fun j hj => by constructor <;> grind -ring -order -linarith

end CondInv

/-! ### Runs -/

theorem step_inv (h : Inv s) (ht : step s e = some t) : Inv t := by
  obtain ⟨⟨o,c,w,hm⟩,waker,hcond⟩ := h
  have hs := hm.shared
  cases e with simp only [step,Sys.setPos,Sys.gain] at ht
  | act i => exact ⟨hm.act (fun hp => (hcond.readied hp).1) ht,hcond.act hm ht⟩
  | signal i =>
    split_ifs at ht with hg
    cases ht
    exact ⟨hm.take hg.1,hcond.take hg.1 (List.take_append_drop 1 _).symm⟩
  | broadcast i =>
    split_ifs at ht with hg
    cases ht
    exact ⟨hm.take hg.1,hcond.take hg.1 (List.append_nil _).symm⟩
  | tryLock i =>
    have hi := hm.thread i
    split_ifs at ht with hp h0 <;> cases ht
    · exact ⟨hm.goesTo (some i) none none (by constructor <;> grind -ring -order -linarith)
        fun j hj => by constructor <;> grind -ring -order -linarith,
        waker,hcond.nodup,hcond.fifo,fun j => by
          have hj := hcond.thread j
          constructor <;> grind -ring -order -linarith⟩
    · exact ⟨⟨o,c,w,hm⟩,waker,hcond⟩
  | lock i | unlock i | wait i =>
    have hi := hm.thread i
    split_ifs at ht with hg
    cases ht
    exact ⟨hm.goesTo o c w (by constructor <;> grind -ring -order -linarith)
      fun j hj => by constructor <;> grind -ring -order -linarith,
      hcond.goesTo waker hcond.nodup hcond.fifo fun j hj => by
        constructor <;> grind -ring -order -linarith⟩

/-- A thread that comes back from `condvar_wait` took the mutex itself, or got it from the thread
that has just made it ready. -/
theorem act_returns (h : Inv s) (ht : s.act j = some t) (hi : (s.pos i).Waits)
    (hr : t.pos i = .running) : t.mine i = true := by
  obtain ⟨o,c,w,hm⟩ := h.mutex
  have hj := hm.thread j
  have hloc := hm.thread i
  rw [Sys.act] at ht
  cases hp : s.pos j with simp only [hp,Sys.setPos,Sys.gain,Sys.lose] at ht
  | running | mutexParked | condParked => cases ht
  | readying ths => cases ths <;> cases ht <;> grind -ring -order -linarith [Pos.Waits]
  | handing k => cases ht; cases k <;> grind -ring -order -linarith [Pos.Waits,Caller.afterUnlock]
  | _ =>
    repeat' split at ht
    all_goals cases ht
    all_goals grind -ring -order -linarith [Pos.Waits,Caller.afterUnlock]

theorem step_returns (h : Inv s) (ht : step s e = some t) (hi : (s.pos i).Waits)
    (hr : t.pos i = .running) : t.mine i = true := by
  cases e with
  | act j => exact act_returns h ht hi hr
  | _ =>
    simp only [step,Sys.take,Sys.setPos,Sys.gain] at ht
    repeat' split at ht
    all_goals cases ht
    all_goals grind -ring -order -linarith [Pos.Waits]

theorem Inv.bySignal (h : Inv s) (i : ι) : s.taken.count i =
    s.woken.count i+if s.pos i = .condParked ∧ i ∉ s.condWaiters then 1 else 0 := by
  obtain ⟨waker,hcond⟩ := h.cond
  have hi := hcond.thread i
  have hcount := hi.once
  rw [hcond.fifo,List.count_append,List.Nodup.count hcond.nodup] at hcount
  grind -ring -order -linarith

theorem Inv.queued (h : Inv s) (hc : s.condLock = none) (hi : (s.pos i).Released) :
    i ∈ s.condWaiters ∨ ∃ j,(s.pos j).Signals i := by
  obtain ⟨waker,hcond⟩ := h.cond
  have hloc := hcond.thread i
  cases hw : waker i with
  | some j =>
    -- it is taken off the queue already
    have hj := ((hcond.thread j).readies i).mpr hw
    refine .inr ⟨j,?_⟩
    cases hpj : s.pos j <;> simp_all [Pos.readies,Pos.Signals]
  | none =>
    left
    -- a thread that is not parked yet has the spin lock
    cases hpi : s.pos i with
    | handing k th => cases k <;> grind -ring -order -linarith [Pos.Released]
    | _ => grind -ring -order -linarith [Pos.Released]

theorem Inv.sound (h : Inv s) : Sound s where
  exclusive i j hi hj := by
    obtain ⟨o,c,w,hm⟩ := h.mutex
    have hi := (hm.thread i).mine.mp hi
    exact Option.some.inj (hi.symm.trans ((hm.thread j).mine.mp hj))
  queued hc _ hi := h.queued hc hi
  fifo := h.cond.elim fun _ hcond => hcond.fifo
  once i := h.cond.elim fun _ hcond => (hcond.thread i).once
  bySignal := h.bySignal
  returns _ _ ht _ hi hr := step_returns h ht hi hr

/-- In every state of every run, a thread that has given the mutex back in `condvar_wait` is found
by the next signal, each waiter is woken by one signal or broadcast in its turn, and
`condvar_wait` returns with the mutex. -/
theorem condvar_sound {es : List (Event ι)} (ht : Machine.run step Sys.init es = some t) :
    Sound t :=
  (Machine.run_keeps step_inv inv_init ht).sound

/-- Thread 1 signals while thread 0 waits and thread 2 has the mutex: thread 0 parks a second
time, in the queue of the mutex, and comes back with it. -/
theorem condvar_sound_three : ∃ t : Sys (Fin 3),Machine.run step Sys.init [.lock 0,.act 0,.wait 0,
    .act 0,.act 0,.act 0,.tryLock 2,.signal 1,.act 1,.act 0,.act 0,.unlock 2,.act 2,.act 2,.act 2]
      = some t ∧ (t.pos 0 = .running ∧ t.mine 0) ∧ Sound t := by
  obtain ⟨t,ht,h0⟩ : ∃ t ∈ Machine.run step (Sys.init : Sys (Fin 3)) [.lock 0,.act 0,.wait 0,
    .act 0,.act 0,.act 0,.tryLock 2,.signal 1,.act 1,.act 0,.act 0,.unlock 2,.act 2,.act 2,.act 2],
      t.pos 0 = .running ∧ t.mine 0 := by decide +kernel
  exact ⟨t,ht,h0,condvar_sound ht⟩

end Condvar
end Vessel
