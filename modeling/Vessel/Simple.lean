import Vessel.Sched

/-! The simple policy of the iokernel (`iokernel/simple.c`) on top of the scheduler layer,
and the checks of `control_create_proc` on what a process asks for. -/
namespace Vessel

open Prog

/-- `struct sched_spec`, as far as the policy reads it. -/
structure SchedSpec where
  maxCores : BitVec 32
  guaranteedCores : BitVec 32
  qdelayUs : ℕ

/-- `struct control_hdr`, as far as threads and cores are concerned. -/
structure ControlHdr where
  threadCount : BitVec 32
  schedCfg : SchedSpec

/-- Does `control_create_proc` accept the header?  `nr_guaranteed` is added in unsigned
arithmetic; `rest` stands for the checks of addresses and allocations. -/
def controlCreateProc (mc : Machine) (nrGuaranteed : BitVec 32) (hdr : ControlHdr) (rest : Bool) :
    Bool :=
  !(hdr.threadCount.toNat > mc.ncpu || hdr.threadCount == 0) &&
    !((hdr.schedCfg.guaranteedCores + nrGuaranteed).toNat > mc.allowed.popcount mc.ncpu) && rest

structure SimpleData where
  isCongested : Bool
  qdelayUs : ℕ
  threadsGuaranteed : ℤ
  threadsMax : ℤ
  threadsActive : ℤ
  waking : Bool

/-- The state of the policy.  Processes stand for their `struct simple_data`; `hist` has
`NHIST` entries for every core, newest first. -/
structure Simple where
  data : ℕ → SimpleData
  cores : ℕ → Option ℕ
  hist : ℕ → List (Option ℕ)
  congestedProcs : List ℕ
  idleCores : Bitmap

def nhist : ℕ := 4

def simpleProcIsPreemptible (cursd nextsd : SimpleData) : Bool :=
  cursd.threadsActive > cursd.threadsGuaranteed && nextsd.threadsActive < nextsd.threadsGuaranteed

namespace Simple

def setData (s : Simple) (p : ℕ) (f : SimpleData → SimpleData) : Simple :=
  { s with data := Function.update s.data p (f (s.data p)) }

def cleanupCore (s : Simple) (core : ℕ) : Simple :=
  match s.cores core with
  | none => s
  | some p =>
    { s.setData p fun d => { d with threadsActive := d.threadsActive - 1 } with
      cores := Function.update s.cores core none
      hist := Function.update s.hist core (some p::(s.hist core).dropLast) }

def markCongested (s : Simple) (p : ℕ) : Simple :=
  if (s.data p).isCongested then s
  else { s.setData p fun d => { d with isCongested := true } with
    congestedProcs := p::s.congestedProcs }

def unmarkCongested (s : Simple) (p : ℕ) : Simple :=
  if (s.data p).isCongested then
    { s.setData p fun d => { d with isCongested := false } with
      congestedProcs := s.congestedProcs.erase p }
  else s

/-- `simple_attach` after a successful `malloc`. -/
def attach (s : Simple) (p : ℕ) (cfg : SchedSpec) : Simple :=
  s.setData p fun _ =>
    ⟨false,cfg.qdelayUs,cfg.guaranteedCores.toInt,cfg.maxCores.toInt,0,false⟩

/-- What `simple_run_kthread_on_core` does once the scheduler has taken the request. -/
def runOnCore (s : Simple) (p core : ℕ) : Simple :=
  let s := s.cleanupCore core
  { s.setData p fun d => { d with threadsActive := d.threadsActive + 1, waking := true } with
    cores := Function.update s.cores core (some p)
    idleCores := s.idleCores.clear core }

end Simple

/-- The scheduler layer under the simple policy. -/
structure World where
  sched : Sched
  simple : Simple

def World.setSched (s : Sched) (w : World) : World := { w with sched := s }

def World.setSimple (w : World) (f : Simple → Simple) : World := { w with simple := f w.simple }

def onSched {α : Type} (p : Prog Sched Op Res α) : Prog World Op Res α :=
  p.zoom World.sched World.setSched

/-! ### Adding a core -/

def simpleRunKthreadOnCore (mc : Machine) (p core : ℕ) : Prog World Op Res (Except Errno Unit) := do
  let w ← read
  if (w.sched.procs p).threadsAvail = 0 then
    return .error .ebusy
  match ← onSched (schedRunOnCore mc p core) with
  | .error e => return .error e
  | .ok () => do
    update fun w => w.setSimple fun s => s.runOnCore p core
    return .ok ()

/-- The core is not the process's own, and it is free or may be preempted. -/
def Simple.takeable (s : Simple) (p core : ℕ) : Bool :=
  s.cores core != some p &&
    (s.cores core).all fun q => simpleProcIsPreemptible (s.data q) (s.data p)

/-- The sibling of a core that the process runs on. -/
def siblingCore (mc : Machine) (s : Simple) (p : ℕ) : List ℕ → Option ℕ
  | [] => none
  | core::rest =>
    if s.cores core = some p ∧ s.takeable p (mc.siblings core) ∧ mc.allowed (mc.siblings core) then
      some (mc.siblings core)
    else siblingCore mc s p rest

/-- A core, or the sibling of a core, that an idle thread of the process ran on; the
search ends at a thread that never ran. -/
def previousCore (mc : Machine) (s : Simple) (p : ℕ) (pr : Proc) : List ℕ → Option ℕ
  | [] => none
  | i::rest =>
    let core := (pr.threads i).core
    if core ≥ mc.ncpu then none
    else if s.takeable p core then some core
    else if s.takeable p (mc.siblings core) ∧ mc.allowed (mc.siblings core) then
      some (mc.siblings core)
    else previousCore mc s p pr rest

def preemptibleCore (s : Simple) (p : ℕ) : List ℕ → Option ℕ
  | [] => none
  | core::rest =>
    if s.cores core ≠ some p ∧
        (s.cores core).any fun q => simpleProcIsPreemptible (s.data q) (s.data p) then
      some core
    else preemptibleCore s p rest

/-- `NCPU` if there is no core. -/
def simpleChooseCore (mc : Machine) (w : World) (p : ℕ) : ℕ :=
  match siblingCore mc w.simple p mc.cores with
  | some core => core
  | none =>
    match previousCore mc w.simple p (w.sched.procs p) (w.sched.procs p).idleThreads with
    | some core => core
    | none =>
      let core := w.simple.idleCores.findNextSet mc.ncpu 0
      if core ≠ mc.ncpu then core else (preemptibleCore w.simple p mc.cores).getD mc.ncpu

def simpleAddKthread (mc : Machine) (p : ℕ) : Prog World Op Res (Except Errno Unit) := do
  let w ← read
  if (w.simple.data p).threadsActive ≥ (w.simple.data p).threadsMax then
    return .error .enoent
  let core := simpleChooseCore mc w p
  if core = mc.ncpu then
    return .error .enoent
  simpleRunKthreadOnCore mc p core

def simpleNotifyCoreNeeded (mc : Machine) (p : ℕ) : Prog World Op Res (Except Errno Unit) :=
  simpleAddKthread mc p

/-! ### Notifications -/

/-- Threads that never ran have no core. -/
def setProcToSteal (p : ℕ) (toSteal : Bool) : Prog World Op Res Unit := do
  let w ← read
  fold (fun _ i =>
    let core := ((w.sched.procs p).threads i).core
    if core ≠ uintMax then tell (.storeToSteal core toSteal) else pure ()) ()
    (List.range (w.sched.procs p).threadCount)

def SimpleData.congested (d : SimpleData) (m : Delay) : Bool :=
  (if d.qdelayUs = 0 then m.busy else m.hdelay ≥ d.qdelayUs) || m.parkedBusy

def simpleNotifyCongested (mc : Machine) (p : ℕ) (m : Delay) : Prog World Op Res Unit := do
  let w ← read
  let congested := (w.simple.data p).congested m
  setProcToSteal p congested
  if (w.simple.data p).waking then
    update fun w => w.setSimple fun s => s.setData p fun d => { d with waking := false }
  else if !congested then
    update fun w => w.setSimple fun s => s.unmarkCongested p
  else if (w.simple.data p).isCongested then
    return ()
  else
    match ← simpleAddKthread mc p with
    | .ok () => return ()
    | .error _ => update fun w => w.setSimple fun s => s.markCongested p

/-! ### Polling -/

def World.eligible (w : World) (p : ℕ) : Bool :=
  (w.simple.data p).isCongested && (w.sched.procs p).threadsAvail != 0

/-- The histories of a core and of its sibling, read in turn. -/
def histChoice (w : World) : List (Option ℕ) → List (Option ℕ) → Option ℕ
  | h::hs, g::gs => ((h.filter w.eligible).or (g.filter w.eligible)).or (histChoice w hs gs)
  | _, _ => none

def simpleChooseKthread (mc : Machine) (w : World) (core : ℕ) : Option ℕ :=
  (((w.simple.cores (mc.siblings core)).filter w.eligible).or
    (histChoice w (w.simple.hist core) (w.simple.hist (mc.siblings core)))).or
    (w.simple.congestedProcs.find? fun p => (w.sched.procs p).threadsAvail != 0)

/-- One round of the loop of `simple_sched_poll`. -/
def simplePollCore (mc : Machine) (core : ℕ) : Prog World Op Res Unit := do
  update fun w => w.setSimple fun s =>
    ((s.cores core).elim s s.unmarkCongested).cleanupCore core
  let w ← read
  match simpleChooseKthread mc w core with
  | none => update fun w => w.setSimple fun s => { s with idleCores := s.idleCores.set core }
  | some p => do
    match ← simpleRunKthreadOnCore mc p core with
    | .ok () => return ()
    | .error _ =>
      update fun w => w.setSimple fun s =>
        ({ s with idleCores := s.idleCores.set core } : Simple).markCongested p

def simpleSchedPoll (mc : Machine) (idleCnt : ℕ) (idle : Bitmap) : Prog World Op Res Unit :=
  if idleCnt = 0 then return ()
  else fold (fun _ core => simplePollCore mc core) () (idle.setBits mc.ncpu)

/-- `sched_measure_delay`; the measurement itself is an answer from outside. -/
def schedMeasureDelay (mc : Machine) (p : ℕ) : Prog World Op Res Unit := do
  let m ← perform (.measureDelay p)
  simpleNotifyCongested mc p m

/-- `sched_detect_io_for_idle_runtime` from one of the threads on. -/
def schedDetectIo (mc : Machine) (p : ℕ) : List ℕ → Prog World Op Res Unit
  | [] => return ()
  | i::rest => do
    if ← perform (.hwqDelay ⟨p,i⟩) then
      let _ ← simpleNotifyCoreNeeded mc p
      return ()
    else
      schedDetectIo mc p rest

/-- Clients with a directpath queue and no active thread are looked at. -/
def schedDetectIoFor (mc : Machine) (p : ℕ) : Prog World Op Res Unit := do
  let w ← read
  if (w.sched.procs p).hasDirectpath ∧ (w.sched.procs p).activeThreadCount = 0 then
    schedDetectIo mc p (List.range (w.sched.procs p).threadCount)

/-- `sched_poll`; `slow` says whether the poll interval is over. -/
def simplePoll (mc : Machine) (slow : Bool) : Prog World Op Res Unit := do
  let w ← read
  fold (fun _ p => if slow then schedMeasureDelay mc p else schedDetectIoFor mc p) ()
    w.sched.clients
  let idle ← onSched (schedFastPass mc)
  simpleSchedPoll mc (idle.popcount mc.ncpu) idle
  tell .sendIntrs

/-! ### Calls -/

inductive SimpleCall
  | attach (p : ℕ) (cfg : SchedSpec) (mallocOk : Bool)
  | notifyCongested (p : ℕ) (m : Delay)
  | notifyCoreNeeded (p : ℕ)
  | poll (slow : Bool)

/-- `sched_attach_proc` with the policy's `simple_attach`. -/
def World.attach (w : World) (p : ℕ) (cfg : SchedSpec) (mallocOk : Bool) : World where
  sched := w.sched.schedAttachProc p mallocOk
  simple := if mallocOk then w.simple.attach p cfg else w.simple

def simpleBody (mc : Machine) : SimpleCall → Prog World Op Res Unit
  | .attach p cfg mallocOk => update fun w => w.attach p cfg mallocOk
  | .notifyCongested p m => simpleNotifyCongested mc p m
  | .notifyCoreNeeded p => do
    let _ ← simpleNotifyCoreNeeded mc p
    return ()
  | .poll slow => simplePoll mc slow

def SimpleCall.allowed (w : World) : SimpleCall → Prop
  | .attach p _ _ => p ∉ w.sched.clients
  | .notifyCongested p _ | .notifyCoreNeeded p => p ∈ w.sched.clients
  | .poll _ => True

instance SimpleCall.decidableAllowed (w : World) : (c : SimpleCall) → Decidable (c.allowed w)
  | .attach p _ _ => inferInstanceAs (Decidable (p ∉ w.sched.clients))
  | .notifyCongested p _ | .notifyCoreNeeded p =>
    inferInstanceAs (Decidable (p ∈ w.sched.clients))
  | .poll _ => inferInstanceAs (Decidable True)

/-- After `simple_init`: every allowed core is idle.  Records of processes do not exist yet. -/
def Simple.initial (mc : Machine) (s : Simple) : Prop :=
  (∀ c, s.cores c = none) ∧ (∀ c, s.hist c = List.replicate nhist none) ∧
    s.congestedProcs = [] ∧ ∀ c, s.idleCores c = (decide (c < mc.ncpu) && mc.allowed c)

end Vessel
