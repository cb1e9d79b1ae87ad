import Vessel.Interleave

/-! The mutex of the runtime (`sync.c`, `simple_sync.h`).
`held` is 0 or 1 while nobody waits; a thread that has to wait sets the top bit, joins the
list of waiters and parks.  Both slow paths run under the spin lock `waiter_lock`. -/
namespace Vessel.Mutex

open Prog

def waiterFlag : BitVec 32 := 1#32 <<< 31

/-- `mutex_t`, and the parked threads that have been made ready. -/
structure Mem (ι : Type) where
  held : BitVec 32
  waiterLock : Bool
  waiters : List ι
  ready : ι → Bool

inductive Op (ι : Type)
  | cmpxchg (old new : BitVec 32)
  | fetchAndOr (v : BitVec 32)
  | write (v : BitVec 32)
  | spinLock
  | spinUnlock
  | listAddTail (th : ι)
  | listPop
  | threadReady (th : ι)
  | park (th : ι)

@[reducible] def Res {ι : Type} : Op ι → Type
  | .cmpxchg _ _ => Bool
  | .fetchAndOr _ => BitVec 32
  | .listPop => Option ι
  | _ => Unit

section Program

variable {ι : Type} [DecidableEq ι]

/-- None where the caller has to wait: for the spin lock, or, parked, to be made ready. -/
def exec : (op : Op ι) → Mem ι → Option (Res op × Mem ι)
  | .cmpxchg old new, m =>
    if m.held = old then some (true,{ m with held := new }) else some (false,m)
  | .fetchAndOr v, m => some (m.held,{ m with held := m.held ||| v })
  | .write v, m => some ((),{ m with held := v })
  | .spinLock, m => if m.waiterLock then none else some ((),{ m with waiterLock := true })
  | .spinUnlock, m => some ((),{ m with waiterLock := false })
  | .listAddTail th, m => some ((),{ m with waiters := m.waiters ++ [th] })
  | .listPop, m => some (m.waiters.head?,{ m with waiters := m.waiters.tail })
  | .threadReady th, m => some ((),{ m with ready := Function.update m.ready th true })
  | .park th, m =>
    if m.ready th then some ((),{ m with ready := Function.update m.ready th false }) else none

omit [DecidableEq ι] in
/-- `thread_park_and_unlock_np`. -/
def threadParkAndUnlock (self : ι) : Prog Bool (Op ι) Res Unit := do
  tell .spinUnlock
  tell (.park self)

/-- `__mutex_lock`. -/
def mutexLockInternal (self : ι) : Prog Bool (Op ι) Res Unit := do
  tell .spinLock
  let held ← perform (.fetchAndOr waiterFlag)
  if held = 0 then
    tell (.write 1)
    tell .spinUnlock
  else do
    tell (.listAddTail self)
    threadParkAndUnlock self

def mutexTryLock : Prog Bool (Op ι) Res Bool := perform (Op.cmpxchg 0 1)

def mutexLock (self : ι) : Prog Bool (Op ι) Res Unit := do
  let ok ← perform (.cmpxchg 0 1)
  if ok then pure () else mutexLockInternal self

/-- The waiter that takes over is woken after the spin lock is free. -/
def handOver : Option ι → Prog Bool (Op ι) Res Unit
  | none => do
    tell (.write 0)
    tell .spinUnlock
  | some waketh => do
    tell .spinUnlock
    tell (.threadReady waketh)

/-- `__mutex_unlock`. -/
def mutexUnlockInternal : Prog Bool (Op ι) Res Unit := do
  tell .spinLock
  let waketh ← perform .listPop
  handOver waketh

def mutexUnlock : Prog Bool (Op ι) Res Unit := do
  let ok ← perform (.cmpxchg 1 0)
  if ok then pure () else mutexUnlockInternal

inductive Call
  | lock
  | tryLock
  | unlock
  deriving DecidableEq

/-- A thread remembers whether it is the one that has to unlock. -/
def body (self : ι) : Call → Prog Bool (Op ι) Res Bool
  | .lock => do
    mutexLock self
    update fun _ => true
    return true
  | .tryLock => do
    let ok ← mutexTryLock
    update fun holds => holds || ok
    return ok
  | .unlock => do
    update fun _ => false
    mutexUnlock
    return true

variable (ι) in
/-- Any threads, calling whatever they like; only a holder unlocks. -/
def mutex : Threads ι (Op ι) (Mem ι) Res (fun _ => Bool) (fun _ => Call) (fun _ => Bool) where
  sem op m r m' := exec op m = some (r,m')
  body := body
  allowed _ holds call := call = .unlock → holds = true

instance (i : ι) (s : Bool) (c : Call) : Decidable ((mutex ι).allowed i s c) :=
  inferInstanceAs (Decidable (c = .unlock → s = true))

abbrev MutexConfig (ι : Type) :=
  Config ι (Op ι) (Mem ι) Res (fun _ => Bool) (fun _ => Call) (fun _ => Bool)
abbrev Trace (ι : Type) := List (Event ι (Op ι) Res (fun _ => Call) (fun _ => Bool))

def mutexInit : MutexConfig ι where
  mem := ⟨0,false,[],fun _ => false⟩
  thr _ := ⟨false,none⟩
  trace := []

/-! ### What a history says -/

/-- Thread `i` has the mutex: it took it, or another thread handed it over, and `i` has not
given it up. -/
def owns (i : ι) : Trace ι → Bool
  | [] => false
  | .act j (.cmpxchg old _) true::t => if j = i then old = 0 else owns i t
  | .act j (.fetchAndOr _) held::t => if j = i ∧ held = 0 then true else owns i t
  | .act j (.write v) _::t => if j = i ∧ v = 0 then false else owns i t
  | .act j .listPop (some th)::t => if th = i then true else if j = i then false else owns i t
  | _::t => owns i t

/-- Thread `i` is between a successful call to take the mutex and its call to unlock. -/
def inside (i : ι) : Trace ι → Bool
  | [] => false
  | .done j .lock _::t => if j = i then true else inside i t
  | .done j .tryLock ok::t => if j = i then inside i t || ok else inside i t
  | .start j .unlock::t => if j = i then false else inside i t
  | _::t => inside i t

/-- The threads that joined the list of waiters, in order. -/
def enqueued : Trace ι → List ι
  | [] => []
  | .act _ (.listAddTail th) _::t => enqueued t ++ [th]
  | _::t => enqueued t

/-- The waiters to which the mutex was handed over, in order. -/
def handed : Trace ι → List ι
  | [] => []
  | .act _ .listPop (some th)::t => handed t ++ [th]
  | _::t => handed t

/-- The waiters that were made ready, in order. -/
def woken : Trace ι → List ι
  | [] => []
  | .act _ (.threadReady th) _::t => woken t ++ [th]
  | _::t => woken t

/-- The thread that has handed over the mutex and not made the waiter ready yet. -/
def waker : Trace ι → Option ι
  | [] => none
  | .act j .listPop (some _)::_ => some j
  | .act _ (.threadReady _) _::_ => none
  | _::t => waker t

/-- The waiters that went on with the mutex, in order. -/
def obtained : Trace ι → List ι
  | [] => []
  | .act _ (.park th) _::t => obtained t ++ [th]
  | _::t => obtained t

end Program

end Vessel.Mutex
