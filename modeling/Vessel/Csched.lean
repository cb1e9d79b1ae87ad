import Vessel.Sched

/-! The cluster scheduler that runs on every core (`core/csched.c`), and the parties
around it.  A loop that waits is one control point of the thread and every round of it
is one call, so that other parties may act between two rounds. -/
namespace Vessel

open Prog

/-- Where the thread of a core stands.  It halts where it follows a pointer that is NULL or to
freed memory; what the source does then is not defined. -/
inductive Ctl
  | boot
  | user
  | again
  | tidLoop
  | idleLoop
  | casLoop (next : ℕ)
  | exitLoop (next : Option ℕ)
  | mwaitLoop
  | halted
  deriving DecidableEq

/-- Locals of `csched`: the control point and `cur`. -/
structure CoreLocal where
  ctl : Ctl
  cur : Option ℕ
  deriving DecidableEq

def goto (c : Ctl) : Prog CoreLocal Op Res Unit := update fun l => { l with ctl := c }

/-- `csched` from its entry to the label `again`.  It is entered with `cur_cluster` NULL or of the
cluster that has just called into the runtime. -/
def csched (core : ℕ) : Prog CoreLocal Op Res Unit := do
  let cur ← perform (.loadCurCluster core)
  update fun _ => ⟨.again,cur⟩

/-- From the second test of `next` on: switch to a cluster or look for work again. -/
def cschedSwitch (core : ℕ) (next : Option ℕ) : Prog CoreLocal Op Res Unit := do
  match next with
  | some n => do
    update fun l => { l with cur := some n }
    tell (.storeCurCluster core (some n))
    tell (.enterUser core)
    goto .user
  | none => do
    let l ← read
    if l.cur.isSome then
      tell (.enterUser core)
      goto .user
    else
      goto .again

/-- The label `have_next`. -/
def cschedHaveNext (core : ℕ) (next : Option ℕ) : Prog CoreLocal Op Res Unit := do
  let l ← read
  match l.cur with
  | none => cschedSwitch core next
  | some c => do
    if ← perform (.loadToExit c) then
      goto (.exitLoop next)
    else
      cschedSwitch core next

/-- The label `again`. -/
def cschedAgain (core : ℕ) : Prog CoreLocal Op Res Unit := do
  let gen ← perform (.loadGen core)
  let last ← perform (.loadLastGen core)
  if gen ≠ last then
    goto .tidLoop
  else do
    let next ← perform (.popCluster core)
    cschedHaveNext core next

/-- One test of `next_tid`, and what follows it. -/
def cschedTid (core : ℕ) : Prog CoreLocal Op Res Unit := do
  let tid ← perform (.loadNextTid core)
  if tid = 0 then
    let gen ← perform (.loadGen core)
    tell (.storeLastGen core gen)
    tell (.storeIdling core true)
    goto .idleLoop
  else do
    tell (.storeIdling core false)
    let tid ← perform (Op.loadNextTid core)
    match ← perform (Op.loadClusterPtr tid) with
    | some next => goto (.casLoop next)
    | none => goto .halted

def cschedIdle (core : ℕ) : Prog CoreLocal Op Res Unit := do
  let gen ← perform (.loadGen core)
  let last ← perform (.loadLastGen core)
  if gen ≠ last then
    goto .tidLoop

def cschedCas (core next : ℕ) : Prog CoreLocal Op Res Unit := do
  match ← perform (Op.casParked next) with
  | some true => do
    let gen ← perform (.loadGen core)
    tell (.storeLastGen core gen)
    cschedHaveNext core (some next)
  | some false => return ()
  | none => goto .halted

def cschedExit (core : ℕ) (next : Option ℕ) : Prog CoreLocal Op Res Unit := do
  let l ← read
  match l.cur with
  | none => cschedSwitch core next
  | some c => do
    if ← perform (.deattachTask c) then
      return ()
    tell (.deallocCluster c)
    update fun l => { l with cur := none }
    cschedSwitch core next

def yield (core cur : ℕ) : Prog CoreLocal Op Res Unit := do
  tell (.parkCluster cur)
  tell (.storeParked cur true)
  tell (.storeIdling core true)
  tell (.storeCurCluster core none)
  csched core

def clusterYield (core : ℕ) : Prog CoreLocal Op Res Unit := do
  match ← perform (Op.loadCurCluster core) with
  | some cur => do
    tell (.leaveUser core)
    yield core cur
  | none => csched core

/-- `__mwait` up to its loop. -/
def mwait (core cur : ℕ) : Prog CoreLocal Op Res Unit := do
  tell (.parkCluster cur)
  tell (.storeParked cur true)
  tell (.storeCurCluster core none)
  tell (.storeIdling core true)
  goto .mwaitLoop

def mwaitRound (core : ℕ) : Prog CoreLocal Op Res Unit := do
  let gen ← perform (.loadGen core)
  let last ← perform (.loadLastGen core)
  if gen ≠ last then
    tell (.storeIdling core false)
    csched core

def clusterMwait (core : ℕ) : Prog CoreLocal Op Res Unit := do
  match ← perform (Op.loadCurCluster core) with
  | some cur => do
    tell (.leaveUser core)
    mwait core cur
  | none => goto .halted

def clusterExit (core : ℕ) : Prog CoreLocal Op Res Unit := do
  match ← perform (Op.loadCurCluster core) with
  | some cur => do
    tell (.leaveUser core)
    tell (.storeToExit cur true)
    csched core
  | none => goto .halted

/-- `cluster_spawn`; `inMask` is the test of the task's `cpu_mask`.  The source does not
look whether `alloc_cluster` returned NULL before it fills the new cluster in. -/
def clusterSpawn (pref : ℕ) (inMask : Bool) : Prog CoreLocal Op Res Unit := do
  if inMask then
    match ← perform Op.allocCluster with
    | some newc => do
      tell (.storeParked newc false)
      tell (.attachCluster pref newc)
    | none => goto .halted

/-- `task_init` of the daemon: the main cluster of a new task goes to core `pref`. -/
def taskInit (pref : ℕ) : Prog Unit Op Res Unit := do
  match ← perform Op.allocCluster with
  | some main => do
    tell (.storeParked main false)
    tell (.storeToExit main false)
    if ← perform (.attachTask main) then
      tell (.attachCluster pref main)
  | none => return ()

inductive CoreCall
  | step
  | yield
  | mwait
  | exit
  | spawn (pref : ℕ) (inMask : Bool)

def cschedStep (core : ℕ) : Prog CoreLocal Op Res Unit := do
  let l ← read
  match l.ctl with
  | .boot => clusterYield core
  | .again => cschedAgain core
  | .tidLoop => cschedTid core
  | .idleLoop => cschedIdle core
  | .casLoop next => cschedCas core next
  | .exitLoop next => cschedExit core next
  | .mwaitLoop => mwaitRound core
  | .user => return ()
  | .halted => return ()

def coreBody (core : ℕ) : CoreCall → Prog CoreLocal Op Res Unit
  | .step => cschedStep core
  | .yield => clusterYield core
  | .mwait => clusterMwait core
  | .exit => clusterExit core
  | .spawn pref inMask => clusterSpawn pref inMask

/-- User code may call into the runtime at any time; an interrupt is such a call. -/
def CoreCall.allowed (l : CoreLocal) : CoreCall → Prop
  | .step => l.ctl ≠ .user ∧ l.ctl ≠ .halted
  | _ => l.ctl = .user

instance CoreCall.decidableAllowed : (l : CoreLocal) → (c : CoreCall) → Decidable (c.allowed l)
  | l, .step => inferInstanceAs (Decidable (l.ctl ≠ .user ∧ l.ctl ≠ .halted))
  | l, .yield | l, .mwait | l, .exit | l, .spawn _ _ => inferInstanceAs (Decidable (l.ctl = .user))

/-! ### The parties -/

inductive Party
  | iok
  | daemon
  | core (i : ℕ)
  deriving DecidableEq

@[reducible] def PartyState (S : Type) : Party → Type
  | .iok => S
  | .daemon => Unit
  | .core _ => CoreLocal

@[reducible] def PartyCall (C : Type) : Party → Type
  | .iok => C
  | .daemon => ℕ
  | .core _ => CoreCall

/-- The cores, the daemon that starts tasks, and an iokernel given by its calls. -/
def system {S C : Type} (body : C → Prog S Op Res Unit) (allowed : S → C → Prop) :
    Threads Party Op Mem Res (PartyState S) (PartyCall C) fun _ => Unit where
  sem := sem
  body
    | .iok => body
    | .daemon => taskInit
    | .core i => coreBody i
  allowed
    | .iok => allowed
    | .daemon => fun _ _ => True
    | .core _ => fun l c => c.allowed l

instance {S C : Type} (body : C → Prog S Op Res Unit) (allowed : S → C → Prop)
    [∀ s c, Decidable (allowed s c)] :
    (i : Party) → (s : PartyState S i) → (c : PartyCall C i) →
      Decidable ((system body allowed).allowed i s c)
  | .iok, s, c => inferInstanceAs (Decidable (allowed s c))
  | .daemon, _, _ => inferInstanceAs (Decidable True)
  | .core _, l, c => inferInstanceAs (Decidable (CoreCall.allowed l c))

abbrev SystemConfig (S C : Type) :=
  Config Party Op Mem Res (PartyState S) (PartyCall C) fun _ => Unit
abbrev SystemTrace (C : Type) := List (Event Party Op Res (PartyCall C) fun _ => Unit)

def systemStart {S C : Type} (s : S) : SystemConfig S C where
  mem := .initial
  thr
    | .iok => ⟨s,none⟩
    | .daemon => ⟨(),none⟩
    | .core _ => ⟨⟨.boot,none⟩,none⟩
  trace := []

end Vessel
