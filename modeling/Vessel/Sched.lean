import Vessel.CoreConn

/-! The iokernel's scheduler layer (`iokernel/sched.c`, `iokernel/ksched.h`).
Processes own threads; a core has a current thread, and a pending one while an earlier
request is still on its way. -/
namespace Vessel

open Prog Function

def uintMax : ℕ := 2^32 - 1

/-- The cores of the machine: `NCPU`, `sched_allowed_cores` and `sched_siblings`. -/
structure Machine where
  ncpu : ℕ
  allowed : Bitmap
  siblings : ℕ → ℕ
  ncpu_le : ncpu ≤ uintMax
  siblings_lt : ∀ i < ncpu, siblings i < ncpu

/-- `sched_cores_tbl`. -/
def Machine.cores (mc : Machine) : List ℕ := mc.allowed.setBits mc.ncpu

inductive Errno
  | einval | enoent | ebusy | enomem
  deriving DecidableEq

/-- `struct thread`. -/
structure Th where
  active : Bool
  tid : ℤ
  core : ℕ
  atIdx : ℕ

/-- `struct proc`; threads of the process are named by their index. -/
structure Proc where
  ref : ℕ
  hasDirectpath : Bool
  threadCount : ℕ
  activeThreadCount : ℕ
  threads : ℕ → Th
  activeThreads : ℕ → ℕ
  idleThreads : List ℕ
  flowTbl : ℕ → ℕ

namespace Proc

def setThread (pr : Proc) (i : ℕ) (f : Th → Th) : Proc :=
  { pr with threads := update pr.threads i (f (pr.threads i)) }

/-- The identity queues of `sched_steer_flows`. -/
def ownFlows (pr : Proc) : ℕ → ℕ :=
  (List.range pr.activeThreadCount).foldl
    (fun tbl i => update tbl (pr.activeThreads i) (pr.activeThreads i)) fun _ => uintMax

/-- The remaining queues, dealt out in turn; `j` counts the deals. -/
def otherFlows (pr : Proc) (tbl : ℕ → ℕ) : ℕ → ℕ :=
  ((List.range pr.threadCount).foldl (fun (acc : (ℕ → ℕ) × ℕ) i =>
    if acc.1 i ≠ uintMax then acc
    else (update acc.1 i (pr.activeThreads (acc.2 % pr.activeThreadCount)),acc.2+1))
    (tbl,0)).1

def schedSteerFlows (pr : Proc) : Proc :=
  if pr.activeThreadCount = 0 then pr else { pr with flowTbl := pr.otherFlows pr.ownFlows }

def schedEnableKthread (pr : Proc) (i core : ℕ) : Proc :=
  schedSteerFlows { pr.setThread i fun th =>
      { th with active := true, core := core, atIdx := pr.activeThreadCount } with
    idleThreads := pr.idleThreads.erase i
    activeThreads := update pr.activeThreads pr.activeThreadCount i
    activeThreadCount := pr.activeThreadCount + 1 }

/-- The last active thread takes the place of the one that leaves. -/
def schedDisableKthread (pr : Proc) (i : ℕ) : Proc :=
  let idx := (pr.threads i).atIdx
  let last := pr.activeThreads (pr.activeThreadCount - 1)
  schedSteerFlows { (pr.setThread i fun th => { th with active := false }).setThread last
      fun th => { th with atIdx := idx } with
    idleThreads := i::pr.idleThreads
    activeThreads := update pr.activeThreads idx last
    activeThreadCount := pr.activeThreadCount - 1 }

section Fields

variable (pr : Proc) (i core k : ℕ)

@[simp] theorem steer_threads : pr.schedSteerFlows.threads = pr.threads := by
  unfold schedSteerFlows; split <;> rfl
@[simp] theorem steer_activeThreads : pr.schedSteerFlows.activeThreads = pr.activeThreads := by
  unfold schedSteerFlows; split <;> rfl
@[simp] theorem steer_activeThreadCount :
    pr.schedSteerFlows.activeThreadCount = pr.activeThreadCount := by
  unfold schedSteerFlows; split <;> rfl
@[simp] theorem steer_idleThreads : pr.schedSteerFlows.idleThreads = pr.idleThreads := by
  unfold schedSteerFlows; split <;> rfl
@[simp] theorem steer_threadCount : pr.schedSteerFlows.threadCount = pr.threadCount := by
  unfold schedSteerFlows; split <;> rfl
@[simp] theorem steer_ref : pr.schedSteerFlows.ref = pr.ref := by
  unfold schedSteerFlows; split <;> rfl

@[simp] theorem enable_self : (pr.schedEnableKthread i core).threads i =
    { pr.threads i with active := true, core := core, atIdx := pr.activeThreadCount } := by
  simp [schedEnableKthread,setThread]
theorem enable_of_ne {i k : ℕ} (h : k ≠ i) :
    (pr.schedEnableKthread i core).threads k = pr.threads k := by
  simp [schedEnableKthread,setThread,h]
@[simp] theorem enable_activeThreads : (pr.schedEnableKthread i core).activeThreads =
    update pr.activeThreads pr.activeThreadCount i := by simp [schedEnableKthread]
@[simp] theorem enable_count :
    (pr.schedEnableKthread i core).activeThreadCount = pr.activeThreadCount + 1 := by
  simp [schedEnableKthread]
@[simp] theorem enable_idleThreads :
    (pr.schedEnableKthread i core).idleThreads = pr.idleThreads.erase i := by
  simp [schedEnableKthread]
@[simp] theorem enable_threadCount : (pr.schedEnableKthread i core).threadCount = pr.threadCount := by
  simp [schedEnableKthread,setThread]
@[simp] theorem enable_ref : (pr.schedEnableKthread i core).ref = pr.ref := by
  simp [schedEnableKthread,setThread]

@[simp] theorem disable_active : ((pr.schedDisableKthread i).threads k).active =
    if k = i then false else (pr.threads k).active := by
  simp only [schedDisableKthread,steer_threads,setThread,update_apply]
  split_ifs <;> simp_all
@[simp] theorem disable_atIdx : ((pr.schedDisableKthread i).threads k).atIdx =
    if k = pr.activeThreads (pr.activeThreadCount - 1) then (pr.threads i).atIdx
    else (pr.threads k).atIdx := by
  simp only [schedDisableKthread,steer_threads,setThread,update_apply]
  split_ifs <;> simp_all
@[simp] theorem disable_core : ((pr.schedDisableKthread i).threads k).core = (pr.threads k).core := by
  simp only [schedDisableKthread,steer_threads,setThread,update_apply]
  split_ifs <;> simp_all
@[simp] theorem disable_activeThreads : (pr.schedDisableKthread i).activeThreads =
    update pr.activeThreads (pr.threads i).atIdx
      (pr.activeThreads (pr.activeThreadCount - 1)) := by simp [schedDisableKthread]
@[simp] theorem disable_count :
    (pr.schedDisableKthread i).activeThreadCount = pr.activeThreadCount - 1 := by
  simp [schedDisableKthread]
@[simp] theorem disable_idleThreads :
    (pr.schedDisableKthread i).idleThreads = i::pr.idleThreads := by simp [schedDisableKthread]
@[simp] theorem disable_threadCount : (pr.schedDisableKthread i).threadCount = pr.threadCount := by
  simp [schedDisableKthread,setThread]
@[simp] theorem disable_ref : (pr.schedDisableKthread i).ref = pr.ref := by
  simp [schedDisableKthread,setThread]

end Fields

/-- A thread that last ran on the core, or on its sibling, or else the one idle longest. -/
def schedPickKthread (mc : Machine) (pr : Proc) (core : ℕ) : Option ℕ :=
  ((pr.idleThreads.find? fun i => (pr.threads i).core = core).or
    (pr.idleThreads.find? fun i => (pr.threads i).core = mc.siblings core)).or
    pr.idleThreads.getLast?

/-- The lists that `sched_attach_proc` sets up. -/
def attach (pr : Proc) : Proc :=
  { pr with
    activeThreadCount := 0
    idleThreads := List.range pr.threadCount
    threads := fun i => if i < pr.threadCount
      then { pr.threads i with core := uintMax, active := false } else pr.threads i }

/-- `sched_threads_avail`. -/
def threadsAvail (pr : Proc) : ℕ := pr.threadCount - pr.activeThreadCount

end Proc

structure CoreState where
  pendingTh : Option ThreadRef
  curTh : Option ThreadRef
  idle : Bool
  pending : Bool
  wait : Bool
  deriving DecidableEq

/-- The state table and the processes; `clients` lists the attached ones (`dp.clients`). -/
structure Sched where
  state : ℕ → CoreState
  procs : ℕ → Proc
  clients : List ℕ

namespace Sched

def setCore (s : Sched) (core : ℕ) (f : CoreState → CoreState) : Sched :=
  { s with state := update s.state core (f (s.state core)) }

def setProc (s : Sched) (p : ℕ) (f : Proc → Proc) : Sched :=
  { s with procs := update s.procs p (f (s.procs p)) }

def thread (s : Sched) (t : ThreadRef) : Th := (s.procs t.proc).threads t.idx

/-- `th ? th->tid : 0`. -/
def tid (s : Sched) : Option ThreadRef → ℤ
  | none => 0
  | some t => (s.thread t).tid

def procGet (s : Sched) (p : ℕ) : Sched := s.setProc p fun pr => { pr with ref := pr.ref + 1 }

/-- `proc_put`; `proc_release` only tells the control plane. -/
def procPut (s : Sched) (p : ℕ) : Sched := s.setProc p fun pr => { pr with ref := pr.ref - 1 }

/-- `sched_disable_kthread` and `proc_put` for the thread that stood in a slot, if any. -/
def release (s : Sched) : Option ThreadRef → Sched
  | none => s
  | some t => (s.setProc t.proc fun pr => pr.schedDisableKthread t.idx).procPut t.proc

def schedGetThreadOnCore (s : Sched) (core : ℕ) : Option ThreadRef :=
  if (s.state core).pending then (s.state core).pendingTh else (s.state core).curTh

/-- `sched_attach_proc`; `ok` is the answer of the policy.  A process that the policy
refuses does not become a client. -/
def schedAttachProc (s : Sched) (p : ℕ) (ok : Bool) : Sched :=
  let s := s.setProc p Proc.attach
  if ok then { s with clients := s.clients ++ [p] } else s

end Sched

/-! ### `ksched.h` -/

section Ksched

variable {S : Type}

def kschedRun (core : ℕ) (tid : ℤ) : Prog S Op Res Unit := do
  let gen ← perform (.bumpGen core)
  tell (.storeNextTid core tid)
  tell (.storeGen core gen)

def kschedPollRunDone (core : ℕ) : Prog S Op Res Bool := do
  let last ← perform (.loadLastGen core)
  let gen ← perform (.kschedGen core)
  return last == gen

def kschedPollIdle (core : ℕ) : Prog S Op Res Bool := do
  let idling ← perform (.loadIdling core)
  return idling

end Ksched

/-! ### `sched.c` -/

/-- Interrupt the thread on a core; an idle core needs no interrupt. -/
def schedInterrupt (core : ℕ) : Prog Sched Op Res Unit := do
  let s ← read
  if !(s.state core).idle && (s.state core).curTh.isSome then
    tell (.enqueueIntr core)
  else if (s.state core).idle then
    tell (.skipIntr core)

def schedRun (th : Option ThreadRef) (core : ℕ) : Prog Sched Op Res Unit := do
  let s ← read
  if (s.state core).wait then
    update fun s => (s.release (s.state core).pendingTh).setCore core fun k =>
      { k with pendingTh := th, pending := true }
  else do
    schedInterrupt core
    kschedRun core (s.tid th)
    update fun s => (s.release (s.state core).curTh).setCore core fun k =>
      { k with curTh := th, wait := true, idle := false }

def schedRunOnCore (mc : Machine) (p core : ℕ) : Prog Sched Op Res (Except Errno Unit) := do
  let s ← read
  if (s.procs p).idleThreads = [] ∨ core ≥ mc.ncpu ∨ mc.allowed core = false then
    return .error .einval
  match Proc.schedPickKthread mc (s.procs p) core with
  | none => return .error .enoent
  | some i => do
    update fun s => (s.procGet p).setProc p fun pr => pr.schedEnableKthread i core
    schedRun (some ⟨p,i⟩) core
    return .ok ()

/-- `sched_idle_on_core`; `ksched_idle_hint` does nothing with the hint. -/
def schedIdleOnCore (mc : Machine) (core : ℕ) : Prog Sched Op Res (Except Errno Unit) := do
  if core ≥ mc.ncpu ∨ mc.allowed core = false then
    return .error .einval
  schedRun none core
  return .ok ()

/-- Does a thread that yielded still have input waiting? -/
def ioPending (t : ThreadRef) : Prog Sched Op Res Bool := do
  if ← perform (.rxqPending t) then
    return true
  if ← perform (.hwqBusy t 0) then
    return true
  let busy ← perform (.hwqBusy t 1)
  return busy

/-- `sched_try_fast_rewake`; true where the source returns 0. -/
def schedTryFastRewake (t : ThreadRef) : Prog Sched Op Res Bool := do
  if ← ioPending t then
    let s ← read
    kschedRun (s.thread t).core (s.thread t).tid
    update fun s => s.setCore (s.thread t).core fun k => { k with wait := true }
    return true
  return false

/-- The first half of a round of the fast pass: did a pending switch finish? -/
def pollDone (core : ℕ) : Prog Sched Op Res Unit := do
  let s ← read
  if (s.state core).wait then
    if ← kschedPollRunDone core then
      if (s.state core).pending then
        let th := (s.state core).pendingTh
        update fun s => s.setCore core fun k => { k with pendingTh := none, pending := false }
        tell (.enqueueIntr core)
        kschedRun core (s.tid th)
        update fun s => (s.release (s.state core).curTh).setCore core fun k =>
          { k with curTh := th }
      else
        update fun s => s.setCore core fun k => { k with wait := false }

/-- The second half: did the core go idle?  Answers whether its bit is set. -/
def pollIdle (core : ℕ) : Prog Sched Op Res Bool := do
  let s ← read
  if (s.state core).wait ∨ (s.state core).idle then
    return false
  if ← kschedPollIdle core then
    match (s.state core).curTh with
    | none => do
      update fun s => s.setCore core fun k => { k with idle := true }
      return true
    | some t => do
      if ← schedTryFastRewake t then
        return false
      update fun s => (s.release (some t)).setCore core fun k =>
        { k with curTh := none, idle := true }
      return true
  else
    return false

/-- The fast pass of `sched_poll`: the bitmap of cores that became idle. -/
def schedFastPass (mc : Machine) : Prog Sched Op Res Bitmap :=
  fold (fun idle core => do
    pollDone core
    let b ← pollIdle core
    return if b then idle.set core else idle) .empty mc.cores

/-- What a policy may ask of the scheduler layer while it is polled or notified. -/
inductive PolicyCall
  | run (p core : ℕ)
  | idle (core : ℕ)

def policyCall (mc : Machine) : PolicyCall → Prog Sched Op Res Unit
  | .run p core => do
    let _ ← schedRunOnCore mc p core
    return ()
  | .idle core => do
    let _ ← schedIdleOnCore mc core
    return ()

/-- `sched_poll` under any policy: `before` is what the notifications of the slow pass
lead to, `after` what the final pass leads to. -/
def schedPoll (mc : Machine) (before after : List PolicyCall) : Prog Sched Op Res Unit := do
  fold (fun _ c => policyCall mc c) () before
  let _ ← schedFastPass mc
  fold (fun _ c => policyCall mc c) () after
  tell .sendIntrs

inductive SchedCall
  | attach (p : ℕ) (ok : Bool)
  | run (p core : ℕ)
  | idle (core : ℕ)
  | poll (before after : List PolicyCall)

/-- Threads run for attached processes only. -/
def PolicyCall.allowed (s : Sched) : PolicyCall → Prop
  | .run p _ => p ∈ s.clients
  | .idle _ => True

instance (s : Sched) : (c : PolicyCall) → Decidable (c.allowed s)
  | .run p _ => inferInstanceAs (Decidable (p ∈ s.clients))
  | .idle _ => inferInstanceAs (Decidable True)

/-- Attaching takes a process that is not attached. -/
def SchedCall.allowed (s : Sched) : SchedCall → Prop
  | .attach p _ => p ∉ s.clients
  | .run p core => (PolicyCall.run p core).allowed s
  | .idle core => (PolicyCall.idle core).allowed s
  | .poll before after => ∀ c ∈ before ++ after, c.allowed s

instance (s : Sched) : (c : SchedCall) → Decidable (c.allowed s)
  | .attach p _ => inferInstanceAs (Decidable (p ∉ s.clients))
  | .run p core => inferInstanceAs (Decidable ((PolicyCall.run p core).allowed s))
  | .idle core => inferInstanceAs (Decidable ((PolicyCall.idle core).allowed s))
  | .poll before after => inferInstanceAs (Decidable (∀ c ∈ before ++ after, c.allowed s))

def schedBody (mc : Machine) : SchedCall → Prog Sched Op Res Unit
  | .attach p ok => update fun s => s.schedAttachProc p ok
  | .run p core => policyCall mc (.run p core)
  | .idle core => policyCall mc (.idle core)
  | .poll before after => schedPoll mc before after

end Vessel
