import Mathlib.Data.Fintype.Basic
import Vessel.IndexedHeap
import Vessel.Machine

/-! The timers of the runtime.  Every kthread has a heap of timers under its `timer_lock`; a
timer's entry records the kthread and the index of its slot.  The sections under the lock and
the accesses outside of it are the steps of the machine, for any set of kthreads. -/
namespace Vessel
namespace Timer

open IndexedHeap Function

def runtimeMaxTimers : ℕ := 4096

/-- `struct timer_idx`.  The field `arming` is bookkeeping: which arming of its entry it is. -/
structure TimerIdx where
  deadlineUs : ℕ
  e : ℕ
  arming : ℕ
deriving Repr, DecidableEq

def siftUp (t : Table TimerIdx ℕ) (i : ℕ) : Table TimerIdx ℕ :=
  IndexedHeap.siftUp TimerIdx.e TimerIdx.deadlineUs 4 t i

def siftDown (t : Table TimerIdx ℕ) (i n : ℕ) : Table TimerIdx ℕ :=
  IndexedHeap.siftDown TimerIdx.e TimerIdx.deadlineUs 4 t i n

/-- Where a softirq is that holds no lock. -/
inductive Softirq where
  /-- The entry is out of the heap, and `armed` is still to be cleared. -/
  | taken (x : TimerIdx)
  /-- The handler is to be called. -/
  | cleared (x : TimerIdx)
deriving Repr, DecidableEq

/-- How an arming ended: its handler was called, or a `timer_cancel` of its entry was true. -/
inductive Resolution where
  | called (e arming : ℕ)
  | cancelled (e arming : ℕ)
deriving Repr, DecidableEq

def Resolution.entry : Resolution → ℕ
  | .called e _ => e
  | .cancelled e _ => e

def Resolution.arming : Resolution → ℕ
  | .called _ n => n
  | .cancelled _ n => n

/-- The entries and the heaps of the kthreads `K`.  `armings` and `log` are bookkeeping: how
often an entry was armed, and how its armings ended. -/
structure Sys (K : Type) where
  armed : ℕ → Bool
  idx : ℕ → ℕ
  localk : ℕ → Option K
  timern : K → ℕ
  timers : K → ℕ → TimerIdx
  softirq : K → Option Softirq
  armings : ℕ → ℕ
  log : List Resolution

inductive Event (K : Type) where
  | timerStart (k : K) (e deadlineUs : ℕ)
  | timerCancel (k : K) (e : ℕ)
  | softirqTake (k : K) (nowUs : ℕ)
  | softirqClear (k : K)
  | softirqCall (k : K)
deriving Repr, DecidableEq

variable {K : Type} [DecidableEq K]

namespace Sys

def init : Sys K :=
  ⟨fun _ => false,fun _ => 0,fun _ => none,fun _ => 0,fun _ _ => ⟨0,0,0⟩,fun _ => none,fun _ => 0,[]⟩

/-- The heap array of a kthread, with the indices the entries record. -/
def table (s : Sys K) (k : K) : Table TimerIdx ℕ := ⟨s.timers k,s.idx⟩

def withTable (s : Sys K) (k : K) (n : ℕ) (t : Table TimerIdx ℕ) : Sys K :=
  { s with
    timern := update s.timern k n
    timers := update s.timers k t.slot
    idx := t.idx }

/-- `timer_start_locked` on the kthread `k`; both `BUG`s stop the program. -/
def timerStartLocked (s : Sys K) (k : K) (e deadlineUs : ℕ) : Option (Sys K) :=
  if s.armed e then none
  else if runtimeMaxTimers ≤ s.timern k+1 then none
  else
    let i := s.timern k
    let t := siftUp ((s.table k).put TimerIdx.e i ⟨deadlineUs,e,s.armings e⟩) i
    some { s.withTable k (i+1) t with
      localk := update s.localk e (some k)
      armed := update s.armed e true
      armings := update s.armings e (s.armings e+1) }

/-- The section of `timer_cancel` under the lock of `k`, which it loaded from `localk`: it tries
again if the entry has moved, else it returns. -/
def timerCancel (s : Sys K) (k : K) (e : ℕ) : Option (Sys K × Option Bool) :=
  if s.localk e ≠ some k then some (s,none)
  else if s.armed e = false then some (s,some false)
  else
    match s.timern k with
    -- it would read the slot before the first one
    | 0 => none
    | last+1 =>
      let s' := { s with
        armed := update s.armed e false
        log := .cancelled e (s.armings e-1)::s.log }
      if s.idx e = last then some (s'.withTable k last (s.table k),some true)
      else
        let t := (s.table k).put TimerIdx.e (s.idx e) (s.timers k last)
        let t := siftUp t (t.idx e)
        let t := siftDown t (t.idx e) last
        some (s'.withTable k last t,some true)

/-- One round of the loop of `timer_softirq_one`, up to the release of the lock. -/
def softirqTake (s : Sys K) (k : K) (nowUs : ℕ) : Option (Sys K) :=
  if s.softirq k = none ∧ 0 < s.timern k ∧ (s.timers k 0).deadlineUs ≤ nowUs then
    let i := s.timern k-1
    let t :=
      if 0 < i then siftDown ((s.table k).put TimerIdx.e 0 (s.timers k i)) 0 i else s.table k
    some { s.withTable k i t with
      softirq := update s.softirq k (some (.taken (s.timers k 0))) }
  else none

def softirqClear (s : Sys K) (k : K) : Option (Sys K) :=
  match s.softirq k with
  | some (.taken x) => some { s with
      armed := update s.armed x.e false
      softirq := update s.softirq k (some (.cleared x)) }
  | _ => none

def softirqCall (s : Sys K) (k : K) : Option (Sys K) :=
  match s.softirq k with
  | some (.cleared x) => some { s with
      softirq := update s.softirq k none
      log := .called x.e x.arming::s.log }
  | _ => none

def step (s : Sys K) : Event K → Option (Sys K)
  | .timerStart k e deadlineUs => s.timerStartLocked k e deadlineUs
  | .timerCancel k e => (s.timerCancel k e).map Prod.fst
  | .softirqTake k nowUs => s.softirqTake k nowUs
  | .softirqClear k => s.softirqClear k
  | .softirqCall k => s.softirqCall k

/-- `x` is in the heap of `k`. -/
def InHeap (s : Sys K) (k : K) (x : TimerIdx) : Prop := (s.table k).Holds (s.timern k) x

/-- A softirq has taken `x` out of its heap and has not called the handler. -/
def InHand (s : Sys K) (k : K) (x : TimerIdx) : Prop :=
  s.softirq k = some (.taken x) ∨ s.softirq k = some (.cleared x)

/-- The arming `n` of `e` is still to be resolved. -/
def Waiting (s : Sys K) (e n : ℕ) : Prop :=
  ∃ k x, (s.InHeap k x ∨ s.InHand k x) ∧ x.e = e ∧ x.arming = n

/-- How often the arming `n` of `e` was resolved. -/
def resolutions (s : Sys K) (e n : ℕ) : ℕ :=
  s.log.countP fun r => r.entry = e ∧ r.arming = n

/-- The entry that the softirq of `k` took out of the heap and whose `armed` it is to clear. -/
def taking (s : Sys K) (k : K) : Option ℕ :=
  match s.softirq k with
  | some (.taken x) => some x.e
  | _ => none

/-- No softirq is between the section that took the entry out of the heap and the write of
`armed`. -/
def Settled (s : Sys K) (e : ℕ) : Prop := ∀ k, s.taking k ≠ some e

/-- Every `timer_cancel` finds its entry settled. -/
def Outside (s : Sys K) : Event K → Prop
  | .timerCancel _ e => s.Settled e
  | _ => True

instance (s : Sys K) [Fintype K] : DecidablePred s.Outside
  | .timerCancel _ _ => inferInstanceAs (Decidable (∀ _, _))
  | .timerStart .. | .softirqTake .. | .softirqClear _ | .softirqCall _ => isTrue trivial

end Sys

end Timer
end Vessel
