import Vessel.Bitmap
import Vessel.Counter
import Vessel.Interleave

/-! The memory shared by the iokernel and the cores: `struct core_conn` for every core
(`scheds/state.h`), the registers of clusters that the cores keep (`core/kthread.c`,
`core/cluster.c`), and the accesses to them.  Measurements of queues are answers that
nothing here restricts. -/
namespace Vessel

open Function

/-- Thread `idx` of process `proc`. -/
structure ThreadRef where
  proc : ℕ
  idx : ℕ
  deriving DecidableEq

structure CoreConn where
  nextTid : ℤ
  gen : BitVec 32
  lastGen : BitVec 32
  idling : Bool
  toSteal : Bool

/-- Shared memory.  A cluster is known by its address; `alloced` are the addresses that `malloc`
has given out and not got back, and `clusterPtr` is `cluster_id2cluster_ptr`.  `user c` says that
core `c` is executing code of its current cluster; no program reads it. -/
structure Mem where
  kschedGens : ℕ → BitVec 32
  conn : ℕ → CoreConn
  idCnt : ℕ
  alloced : ℕ → Bool
  clusterPtr : ℤ → Option ℕ
  id : ℕ → ℤ
  clusterList : ℕ → List ℕ
  clusterKthread : ℤ → Option ℕ
  parked : ℕ → Bool
  toExit : ℕ → Bool
  curCluster : ℕ → Option ℕ
  user : ℕ → Bool

def ncluster : ℕ := 128

def Mem.setConn (m : Mem) (core : ℕ) (f : CoreConn → CoreConn) : Mem :=
  { m with conn := update m.conn core (f (m.conn core)) }

/-- `alloc_cluster` at address `a`: a zeroed cluster with the next id. -/
def Mem.alloc (m : Mem) (a : ℕ) : Mem :=
  { m with
    idCnt := m.idCnt+1
    alloced := update m.alloced a true
    clusterPtr := update m.clusterPtr m.idCnt (some a)
    id := update m.id a m.idCnt
    parked := update m.parked a false
    toExit := update m.toExit a false }

/-- Zeroed shared memory, and cluster ids from 1. -/
def Mem.initial : Mem where
  kschedGens _ := 0
  conn _ := ⟨0,0,0,false,false⟩
  idCnt := 1
  alloced _ := false
  clusterPtr _ := none
  id _ := 0
  clusterList _ := []
  clusterKthread _ := none
  parked _ := false
  toExit _ := false
  curCluster _ := none
  user _ := false

/-- What `sched_measure_delay` finds out about a process. -/
structure Delay where
  busy : Bool
  hdelay : ℕ
  parkedBusy : Bool

inductive Op
  -- the iokernel's own generation counters
  | bumpGen (core : ℕ)
  | kschedGen (core : ℕ)
  -- `struct core_conn`
  | storeNextTid (core : ℕ) (tid : ℤ)
  | loadNextTid (core : ℕ)
  | storeGen (core : ℕ) (g : BitVec 32)
  | loadGen (core : ℕ)
  | storeLastGen (core : ℕ) (g : BitVec 32)
  | loadLastGen (core : ℕ)
  | storeIdling (core : ℕ) (b : Bool)
  | loadIdling (core : ℕ)
  | storeToSteal (core : ℕ) (b : Bool)
  -- interrupts; `skipIntr` marks the place where an idle core is not interrupted
  | enqueueIntr (core : ℕ)
  | skipIntr (core : ℕ)
  | sendIntrs
  -- measurements
  | rxqPending (th : ThreadRef)
  | hwqBusy (th : ThreadRef) (i : ℕ)
  | measureDelay (p : ℕ)
  | hwqDelay (th : ThreadRef)
  -- sections of `core/kthread.c` under `cluster_id2kthread_ptr_l`
  | popCluster (core : ℕ)
  | attachCluster (core a : ℕ)
  | parkCluster (a : ℕ)
  -- fields of a cluster and of a core's thread; `casParked` answers nothing for freed memory
  | casParked (a : ℕ)
  | storeParked (a : ℕ) (b : Bool)
  | loadToExit (a : ℕ)
  | storeToExit (a : ℕ) (b : Bool)
  | loadCurCluster (core : ℕ)
  | storeCurCluster (core : ℕ) (cl : Option ℕ)
  -- `core/cluster.c`
  | loadClusterPtr (tid : ℤ)
  | allocCluster
  | deallocCluster (a : ℕ)
  -- try-locks of a task's own list of clusters
  | attachTask (a : ℕ)
  | deattachTask (a : ℕ)
  -- a switch into the code of a cluster, and out of it
  | enterUser (core : ℕ)
  | leaveUser (core : ℕ)

@[reducible] def Res : Op → Type
  | .bumpGen _ | .kschedGen _ | .loadGen _ | .loadLastGen _ => BitVec 32
  | .loadNextTid _ => ℤ
  | .loadIdling _ | .rxqPending _ | .hwqBusy _ _ | .hwqDelay _ | .loadToExit _ | .attachTask _
  | .deattachTask _ => Bool
  | .casParked _ => Option Bool
  | .measureDelay _ => Delay
  | .popCluster _ | .loadCurCluster _ | .loadClusterPtr _ | .allocCluster => Option ℕ
  | _ => Unit

/-- The effect of an access on memory; `r` is the answer. -/
def sem : (op : Op) → Mem → Res op → Mem → Prop
  | .bumpGen c, m, r, m' =>
    r = m.kschedGens c + 1 ∧ m' = { m with kschedGens := update m.kschedGens c r }
  | .kschedGen c, m, r, m' => r = m.kschedGens c ∧ m' = m
  | .storeNextTid c t, m, _, m' => m' = m.setConn c fun k => { k with nextTid := t }
  | .loadNextTid c, m, r, m' => r = (m.conn c).nextTid ∧ m' = m
  | .storeGen c g, m, _, m' => m' = m.setConn c fun k => { k with gen := g }
  | .loadGen c, m, r, m' => r = (m.conn c).gen ∧ m' = m
  | .storeLastGen c g, m, _, m' => m' = m.setConn c fun k => { k with lastGen := g }
  | .loadLastGen c, m, r, m' => r = (m.conn c).lastGen ∧ m' = m
  | .storeIdling c b, m, _, m' => m' = m.setConn c fun k => { k with idling := b }
  | .loadIdling c, m, r, m' => r = (m.conn c).idling ∧ m' = m
  | .storeToSteal c b, m, _, m' => m' = m.setConn c fun k => { k with toSteal := b }
  | .enqueueIntr _, m, _, m' | .skipIntr _, m, _, m' | .sendIntrs, m, _, m'
  | .rxqPending _, m, _, m' | .hwqBusy _ _, m, _, m' | .measureDelay _, m, _, m'
  | .hwqDelay _, m, _, m' | .attachTask _, m, _, m' | .deattachTask _, m, _, m' => m' = m
  | .popCluster c, m, r, m' =>
    match m.clusterList c with
    | [] => r = none ∧ m' = m
    | a::rest => r = some a ∧ m' = { m with
        clusterList := update m.clusterList c rest
        clusterKthread := update m.clusterKthread (m.id a) none }
  | .attachCluster c a, m, _, m' => m' = { m with
      clusterList := update m.clusterList c (m.clusterList c++[a])
      clusterKthread := update m.clusterKthread (m.id a) (some c) }
  | .parkCluster a, m, _, m' =>
    m' = { m with clusterKthread := update m.clusterKthread (m.id a) none }
  | .casParked a, m, r, m' =>
    if m.alloced a then r = some (m.parked a) ∧ m' = { m with parked := update m.parked a false }
    else r = none ∧ m' = m
  | .storeParked a b, m, _, m' => m' = { m with parked := update m.parked a b }
  | .loadToExit a, m, r, m' => r = m.toExit a ∧ m' = m
  | .storeToExit a b, m, _, m' => m' = { m with toExit := update m.toExit a b }
  | .loadCurCluster c, m, r, m' => r = m.curCluster c ∧ m' = m
  | .storeCurCluster c cl, m, _, m' =>
    m' = { m with curCluster := update m.curCluster c cl }
  | .loadClusterPtr tid, m, r, m' => r = m.clusterPtr tid ∧ m' = m
  -- without an answer `malloc` has failed, or all ids are used
  | .allocCluster, m, r, m' =>
    r = none ∧ m' = m ∨
      ∃ a, m.idCnt ≤ ncluster ∧ m.alloced a = false ∧ r = some a ∧ m' = m.alloc a
  | .deallocCluster a, m, _, m' => m' = { m with alloced := update m.alloced a false }
  | .enterUser c, m, _, m' => m' = { m with user := update m.user c true }
  | .leaveUser c, m, _, m' => m' = { m with user := update m.user c false }

/-- One possible effect of an access; answers that are open are yes if `n` is not zero, and a new
cluster is at `n`. -/
def exec (n : ℕ) : (op : Op) → Mem → Res op × Mem
  | .bumpGen c, m => (m.kschedGens c + 1,
      { m with kschedGens := update m.kschedGens c (m.kschedGens c + 1) })
  | .kschedGen c, m => (m.kschedGens c,m)
  | .storeNextTid c t, m => ((),m.setConn c fun k => { k with nextTid := t })
  | .loadNextTid c, m => ((m.conn c).nextTid,m)
  | .storeGen c g, m => ((),m.setConn c fun k => { k with gen := g })
  | .loadGen c, m => ((m.conn c).gen,m)
  | .storeLastGen c g, m => ((),m.setConn c fun k => { k with lastGen := g })
  | .loadLastGen c, m => ((m.conn c).lastGen,m)
  | .storeIdling c b, m => ((),m.setConn c fun k => { k with idling := b })
  | .loadIdling c, m => ((m.conn c).idling,m)
  | .storeToSteal c b, m => ((),m.setConn c fun k => { k with toSteal := b })
  | .enqueueIntr _, m | .skipIntr _, m | .sendIntrs, m => ((),m)
  | .rxqPending _, m | .hwqBusy _ _, m | .hwqDelay _, m | .attachTask _, m
  | .deattachTask _, m => (n != 0,m)
  | .measureDelay _, m => (⟨n != 0,n,n != 0⟩,m)
  | .popCluster c, m =>
    match m.clusterList c with
    | [] => (none,m)
    | a::rest => (some a,{ m with
        clusterList := update m.clusterList c rest
        clusterKthread := update m.clusterKthread (m.id a) none })
  | .attachCluster c a, m => ((),{ m with
      clusterList := update m.clusterList c (m.clusterList c++[a])
      clusterKthread := update m.clusterKthread (m.id a) (some c) })
  | .parkCluster a, m => ((),{ m with clusterKthread := update m.clusterKthread (m.id a) none })
  | .casParked a, m =>
    if m.alloced a then (some (m.parked a),{ m with parked := update m.parked a false })
    else (none,m)
  | .storeParked a b, m => ((),{ m with parked := update m.parked a b })
  | .loadToExit a, m => (m.toExit a,m)
  | .storeToExit a b, m => ((),{ m with toExit := update m.toExit a b })
  | .loadCurCluster c, m => (m.curCluster c,m)
  | .storeCurCluster c cl, m => ((),{ m with curCluster := update m.curCluster c cl })
  | .loadClusterPtr tid, m => (m.clusterPtr tid,m)
  | .allocCluster, m =>
    if m.idCnt ≤ ncluster ∧ m.alloced n = false then (some n,m.alloc n) else (none,m)
  | .deallocCluster a, m => ((),{ m with alloced := update m.alloced a false })
  | .enterUser c, m => ((),{ m with user := update m.user c true })
  | .leaveUser c, m => ((),{ m with user := update m.user c false })

theorem exec_sem (n : ℕ) (op : Op) (m : Mem) : sem op m (exec n op m).1 (exec n op m).2 := by
  cases op with
  | popCluster c =>
    simp only [sem,exec]
    cases m.clusterList c <;> simp
  | casParked a =>
    simp only [sem,exec]
    split <;> simp
  | allocCluster =>
    simp only [sem,exec]
    split
    · rename_i h
      exact .inr ⟨n,h.1,h.2,rfl,rfl⟩
    · exact .inl ⟨rfl,rfl⟩
  | _ => simp [sem,exec]

end Vessel
