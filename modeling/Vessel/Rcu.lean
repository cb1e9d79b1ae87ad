import Mathlib.Data.Fin.Basic
import Mathlib.Logic.Function.Basic
import Vessel.Machine

/-! Read-copy-update in the runtime.  Every kthread has a generation number that it advances
when it enters and leaves the scheduler; the worker waits for all of them before it runs the
callbacks it has taken.  All kthreads are registered before the worker starts, so `nrks` and
`maxks` are one number, `n`. -/
namespace Vessel
namespace Rcu

/-- Where a kthread is. -/
inductive Mode where
  /-- Before `schedule_start`. -/
  | fresh
  /-- In `schedule`, parked or not. -/
  | sched
  /-- A uthread runs, inside `depth` nested read sections. -/
  | thread (depth : ℕ)
  /-- Parked in `thread_finish_cede`. -/
  | ceded
  /-- About to enter `schedule` without a uthread. -/
  | back
deriving Repr, DecidableEq

/-- `sections` is bookkeeping: how many outermost read sections were entered. -/
structure Kthread where
  rcuGen : BitVec 32
  mode : Mode
  sections : ℕ
deriving Repr, DecidableEq

/-- The places of `sched.c` that store a generation number, and the two ends of a read section. -/
inductive Move where
  | scheduleStart
  | schedule
  | scheduleDone
  | enterSchedule
  | cede
  | cedeDone
  | rcuReadLock
  | rcuReadUnlock
deriving Repr, DecidableEq

/-- In a read section preemption is disabled: `handle_cede` returns, and entering the scheduler
is a misuse that stops the program. -/
def Kthread.move (k : Kthread) : Move → Option Kthread
  | .scheduleStart =>
    if k.mode = .fresh then some { k with rcuGen := 1, mode := .back } else none
  | .schedule =>
    if k.mode = .thread 0 ∨ k.mode = .back then some { k with rcuGen := k.rcuGen+1, mode := .sched }
    else none
  | .scheduleDone =>
    if k.mode = .sched then some { k with rcuGen := k.rcuGen+1, mode := .thread 0 } else none
  | .enterSchedule =>
    if k.mode = .thread 0 then some { k with rcuGen := k.rcuGen+2 } else none
  | .cede =>
    if k.mode = .thread 0 then some { k with rcuGen := k.rcuGen+1, mode := .ceded } else none
  | .cedeDone =>
    if k.mode = .ceded then some { k with rcuGen := k.rcuGen+1, mode := .back } else none
  | .rcuReadLock =>
    match k.mode with
    | .thread 0 => some { k with mode := .thread 1, sections := k.sections+1 }
    | .thread (d+1) => some { k with mode := .thread (d+2) }
    | _ => none
  | .rcuReadUnlock =>
    match k.mode with
    | .thread (d+1) => some { k with mode := .thread d }
    | _ => none

/-- The kthread runs a uthread that is in its read section number `m`. -/
def Kthread.Inside (k : Kthread) (m : ℕ) : Prop := (∃ d, k.mode = .thread (d+1)) ∧ k.sections = m

/-- The read section a kthread is in. -/
def Kthread.reading (k : Kthread) : Option ℕ :=
  match k.mode with
  | .thread (_+1) => some k.sections
  | _ => none

/-- A call of `rcu_free`: `id` is its number, and `seen` the read sections that were open then,
both for bookkeeping. -/
structure Callback (n : ℕ) where
  id : ℕ
  seen : Fin n → Option ℕ

/-- Where `rcu_worker` is, with its locals `last_rcu_gen`, `i` and `head`. -/
inductive Worker (n : ℕ) where
  | idle
  | loading (last : Fin n → BitVec 32) (i : ℕ) (head : List (Callback n))
  | sleeping (last : Fin n → BitVec 32) (head : List (Callback n))
  | checking (last : Fin n → BitVec 32) (i : ℕ) (head : List (Callback n))
  | calling (head : List (Callback n))

/-- `calls` and `ran` are bookkeeping: the calls of `rcu_free` so far, and what was run. -/
structure Sys (n : ℕ) where
  ks : Fin n → Kthread
  rcuHead : List (Callback n)
  worker : Worker n
  calls : ℕ
  ran : List (Callback n)

inductive Event (n : ℕ) where
  | kthread (k : Fin n) (m : Move)
  | rcuFree
  | workerTake
  | workerLoad
  | workerWake
  | workerCheck
  | workerCall
deriving Repr, DecidableEq

variable {n : ℕ}

def Worker.head : Worker n → List (Callback n)
  | .idle => []
  | .loading _ _ head => head
  | .sleeping _ head => head
  | .checking _ _ head => head
  | .calling head => head

/-- One step of `rcu_worker` after it has taken the list; the loads are steps of their own. -/
def Worker.load (ks : Fin n → Kthread) : Worker n → Option (Worker n)
  | .loading last i head =>
    if h : i < n then some (.loading (Function.update last ⟨i,h⟩ (ks ⟨i,h⟩).rcuGen) (i+1) head)
    else some (.sleeping last head)
  | _ => none

def Worker.check (ks : Fin n → Kthread) : Worker n → Option (Worker n)
  | .checking last i head =>
    if h : i < n then
      if (ks ⟨i,h⟩).rcuGen &&& 1 = 1 ∧ (ks ⟨i,h⟩).rcuGen = last ⟨i,h⟩ then some (.sleeping last head)
      else some (.checking last (i+1) head)
    else some (.calling head)
  | _ => none

namespace Sys

def init : Sys n := ⟨fun _ => ⟨0,.fresh,0⟩,[],.idle,0,[]⟩

def rcuFree (s : Sys n) : Sys n :=
  { s with rcuHead := ⟨s.calls,fun k => (s.ks k).reading⟩::s.rcuHead, calls := s.calls+1 }

def step (s : Sys n) : Event n → Option (Sys n)
  | .kthread k m => ((s.ks k).move m).map fun k' => { s with ks := Function.update s.ks k k' }
  | .rcuFree => some s.rcuFree
  | .workerTake =>
    match s.worker with
    | .idle =>
      -- with an empty list the worker sleeps and looks again
      if s.rcuHead = [] then some s
      else some { s with worker := .loading (fun _ => 0) 0 s.rcuHead, rcuHead := [] }
    | _ => none
  | .workerLoad => (s.worker.load s.ks).map fun w => { s with worker := w }
  | .workerWake =>
    match s.worker with
    | .sleeping last head => some { s with worker := .checking last 0 head }
    | _ => none
  | .workerCheck => (s.worker.check s.ks).map fun w => { s with worker := w }
  | .workerCall =>
    match s.worker with
    | .calling [] => some { s with worker := .idle }
    | .calling (c::rest) => some { s with worker := .calling rest, ran := c::s.ran }
    | _ => none

def run (es : List (Event n)) : Option (Sys n) := Machine.run step init es

/-- Every read section that was open at the call of `rcu_free` has been left. -/
def Quiescent (s : Sys n) (c : Callback n) : Prop := ∀ k m, c.seen k = some m → ¬(s.ks k).Inside m

end Sys

end Rcu
end Vessel
