import Mathlib.Algebra.BigOperators.Group.Finset.Basic
import Mathlib.Data.Fintype.Basic
import Mathlib.Data.Multiset.Basic
import Vessel.Machine
import Vessel.Ring
import Vessel.Serial

/-! The run queues.  A kthread has a ring of runnable threads with an overflow list, and
publishes the indices of both together for the thieves and the scheduler of the machine.  The
owner of a queue pushes without the lock in `thread_ready`; everything else is a section under
the lock. -/
namespace Vessel
namespace RunQueue

open Serial

def runtimeRqSize : ℕ := 32

/-- What the owner of a queue is doing outside of the lock. -/
inductive Doing where
  | nothing
  /-- In `thread_ready`, with room in the ring at the load of `rq_tail`. -/
  | pushing (th : ℕ)
  /-- In `thread_ready`, with a full ring at the load of `rq_tail`. -/
  | spilling (th : ℕ)
  /-- The thread is queued, and `q_ptrs->rq_head` is to be advanced. -/
  | publishing
deriving Repr, DecidableEq

/-- `rq`, `rq_head` and `rq_tail`, the list `rq_overflow`, and the two indices of `q_ptrs`. -/
structure Kthread where
  rq : Ring ℕ
  rqOverflow : List ℕ
  qHead : BitVec 32
  qTail : BitVec 32
  doing : Doing

namespace Kthread

def publish (k : Kthread) : Kthread := { k with qHead := k.qHead+1 }

/-- A thread at the tail of the queue. -/
def addTail (k : Kthread) (th : ℕ) : Kthread :=
  if runtimeRqSize ≤ k.rq.size then { k with rqOverflow := k.rqOverflow++[th] }
  else { k with rq := k.rq.pushBack runtimeRqSize th }

/-- A thread at the head of the queue, which displaces the newest one from a full ring. -/
def addHead (k : Kthread) (th : ℕ) : Kthread :=
  let oldest := k.rq.get runtimeRqSize (k.rq.tail-1)
  let rq := k.rq.pushFront runtimeRqSize th
  if runtimeRqSize < rq.size then { k with rq := rq.popBack, rqOverflow := oldest::k.rqOverflow }
  else { k with rq := rq }

def drainLoop : Ring ℕ → List ℕ → Ring ℕ × List ℕ
  | rq,[] => (rq,[])
  | rq,th::ths =>
    if rq.size < runtimeRqSize then drainLoop (rq.pushBack runtimeRqSize th) ths else (rq,th::ths)

def drainOverflow (k : Kthread) : Kthread :=
  { k with rq := (drainLoop k.rq k.rqOverflow).1, rqOverflow := (drainLoop k.rq k.rqOverflow).2 }

def resetRq (k : Kthread) : Kthread := { k with rq := { k.rq with head := 0, tail := 0 } }

/-- The first part of `schedule`: the overflow list is drained, and an empty ring starts anew. -/
def scheduleTop (k : Kthread) : Kthread :=
  if k.drainOverflow.rq.head = k.drainOverflow.rq.tail then k.drainOverflow.resetRq
  else k.drainOverflow

/-- The thread that `schedule` and `enter_schedule` run next. -/
def next (k : Kthread) : ℕ := k.rq.get runtimeRqSize k.rq.tail

def pick (k : Kthread) : Kthread :=
  { k with rq := k.rq.popFront, qTail := k.qTail+1 }.drainOverflow

/-- The loop of `drain_threads`: the threads it takes, and what it leaves. -/
def drainThreadsLoop : ℕ → Ring ℕ → List ℕ → List ℕ × Ring ℕ × List ℕ
  | 0,rq,ths => ([],rq,ths)
  | nr+1,rq,ths =>
    if wrapsLt rq.tail rq.head then
      let rest := drainThreadsLoop nr rq.popFront ths
      (rq.get runtimeRqSize rq.tail::rest.1,rest.2)
    else
      match ths with
      | [] => ([],rq,[])
      | th::ths =>
        let rest := drainThreadsLoop nr rq ths
        (th::rest.1,rest.2)

/-- The loop of `merge_runqueues`, which merges two lists of threads by `ready_tsc`. -/
def mergeLoop (readyTsc : ℕ → ℕ) : ℕ → List ℕ → List ℕ → Kthread → Kthread
  | 0,_,_,k => k
  | i+1,r::rs,[],k => mergeLoop readyTsc i rs [] (k.addTail r)
  | i+1,r::rs,l::ls,k =>
    if readyTsc r < readyTsc l then mergeLoop readyTsc i rs (l::ls) (k.addTail r)
    else mergeLoop readyTsc i (r::rs) ls (k.addTail l)
  | i+1,[],l::ls,k => mergeLoop readyTsc i [] ls (k.addTail l)
  | _+1,[],[],k => k

/-- `merge_runqueues`: up to `rsize` threads of `r` move to `l`, whose ring is filled anew. -/
def mergeRunqueues (readyTsc : ℕ → ℕ) (l : Kthread) (lsize : ℕ) (r : Kthread) (rsize : ℕ) :
    Kthread × Kthread :=
  let fromR := drainThreadsLoop rsize r.rq r.rqOverflow
  let fromL := drainThreadsLoop lsize l.rq l.rqOverflow
  let l' := mergeLoop readyTsc (fromL.1.length+fromR.1.length) fromR.1 fromL.1
    { l with rqOverflow := fromL.2.2 }.resetRq
  ({ l' with qHead := l'.qHead+BitVec.ofNat 32 fromR.1.length },
    { r with
      rq := fromR.2.1, rqOverflow := fromR.2.2, qTail := r.qTail+BitVec.ofNat 32 fromR.1.length })

def numToSteal (l r : Kthread) : ℕ :=
  let lsize := l.qHead-l.qTail
  let rsize := r.qHead-r.qTail
  if lsize < rsize then min ((rsize-lsize+2-1)/2).toNat runtimeRqSize else 0

/-- `steal_work` of `l` from `r`, up to the softirqs; `pending` is `softirq_pending(r)`.  The
caller has just found its own ring empty and reset it. -/
def stealWork (readyTsc : ℕ → ℕ) (l r : Kthread) (pending : Bool) : Option (Kthread × Kthread) :=
  if l.rq.head ≠ 0 ∨ l.rq.tail ≠ 0 then none
  else if r.rq.tail = r.rq.head ∧ pending = false then some (l,r)
  else if numToSteal l r = 0 then some (l,r)
  else some (mergeRunqueues readyTsc l (l.qHead-l.qTail).toNat r (numToSteal l r))

end Kthread

/-- The kthreads, and of every thread the flag `thread_ready` and `ready_tsc`. -/
structure Sys (K : Type) where
  ks : K → Kthread
  threadReady : ℕ → Bool
  readyTsc : ℕ → ℕ

inductive Event (K : Type) where
  | readyBegin (k : K) (th tsc : ℕ)
  | readyPut (k : K)
  | readyPublish (k : K)
  | threadReadyLocked (k : K) (th tsc : ℕ)
  | threadReadyHeadLocked (k : K) (th tsc : ℕ)
  | threadReadyHead (k : K) (th tsc : ℕ)
  | threadFinishCede (k : K) (th : ℕ)
  | scheduleTop (k : K)
  | drainOverflow (k : K)
  | pick (k : K)
  | stealWork (l r : K) (pending : Bool)
deriving Repr, DecidableEq

variable {K : Type} [DecidableEq K]

namespace Sys

def init : Sys K := ⟨fun _ => ⟨⟨fun _ => 0,0,0⟩,[],0,0,.nothing⟩,fun _ => false,fun _ => 0⟩

def set (s : Sys K) (k : K) (x : Kthread) : Sys K := { s with ks := Function.update s.ks k x }

/-- `thread_ready_prepare`: a thread that is ready already stops the program. -/
def threadReadyPrepare (s : Sys K) (th tsc : ℕ) : Option (Sys K) :=
  if s.threadReady th then none
  else some { s with
    threadReady := Function.update s.threadReady th true
    readyTsc := Function.update s.readyTsc th tsc }

/-- A thread at the head of the queue is as old as the one that was there. -/
def inheritTsc (s : Sys K) (k : K) (th : ℕ) : Sys K :=
  if (s.ks k).rq.head = (s.ks k).rq.tail then s
  else { s with readyTsc := Function.update s.readyTsc th (s.readyTsc (s.ks k).next) }

def step (s : Sys K) : Event K → Option (Sys K)
  | .readyBegin k th tsc =>
    if (s.ks k).doing = .nothing then
      (s.threadReadyPrepare th tsc).map fun s => s.set k { s.ks k with
        doing := if runtimeRqSize ≤ (s.ks k).rq.size then .spilling th else .pushing th }
    else none
  | .readyPut k =>
    match (s.ks k).doing with
    | .pushing th => some (s.set k { s.ks k with
        rq := (s.ks k).rq.pushBack runtimeRqSize th, doing := .publishing })
    | .spilling th => some (s.set k { s.ks k with
        rqOverflow := (s.ks k).rqOverflow++[th], doing := .publishing })
    | _ => none
  | .readyPublish k =>
    if (s.ks k).doing = .publishing then
      some (s.set k { (s.ks k).publish with doing := .nothing })
    else none
  | .threadReadyLocked k th tsc =>
    if (s.ks k).doing = .nothing then
      (s.threadReadyPrepare th tsc).map fun s => s.set k ((s.ks k).addTail th).publish
    else none
  | .threadReadyHeadLocked k th tsc =>
    if (s.ks k).doing = .nothing then
      (s.threadReadyPrepare th tsc).map fun s =>
        (s.inheritTsc k th).set k ((s.ks k).addHead th).publish
    else none
  | .threadReadyHead k th tsc =>
    if (s.ks k).doing = .nothing then
      (s.threadReadyPrepare th tsc).map fun s =>
        (s.inheritTsc k th).set k { (s.ks k).addHead th with doing := .publishing }
    else none
  | .threadFinishCede k th =>
    if (s.ks k).doing = .nothing then
      some ({ s with threadReady := Function.update s.threadReady th true }.set k
        ((s.ks k).publish.addHead th))
    else none
  | .scheduleTop k =>
    if (s.ks k).doing = .nothing then some (s.set k (s.ks k).scheduleTop) else none
  | .drainOverflow k =>
    if (s.ks k).doing = .nothing then some (s.set k (s.ks k).drainOverflow) else none
  | .pick k =>
    if (s.ks k).doing = .nothing ∧ (s.ks k).rq.head ≠ (s.ks k).rq.tail then
      some ({ s with threadReady := Function.update s.threadReady (s.ks k).next false }.set k
        (s.ks k).pick)
    else none
  | .stealWork l r pending =>
    if (s.ks l).doing = .nothing ∧ r ≠ l then
      (Kthread.stealWork s.readyTsc (s.ks l) (s.ks r) pending).map fun p => (s.set l p.1).set r p.2
    else none

def run (es : List (Event K)) : Option (Sys K) := Machine.run step init es

end Sys

end RunQueue
end Vessel
