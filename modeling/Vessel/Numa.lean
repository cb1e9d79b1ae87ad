import Vessel.Machine
import Vessel.SchedInvariant

/-! The NUMA policy of the iokernel (`iokernel/numa.c`).
The answers of the scheduler layer come from outside, so that every state of the policy that the
scheduler can bring about is reached. -/
namespace Vessel.Numa

open Function Option

/-- `cfg.noht`, `numa_count`, and the cores of the sockets. -/
structure Config where
  noht : Bool
  numaCount : ℕ
  sockets : ℕ → Bitmap

/-- `struct sched_spec`, as far as the policy reads it. -/
structure Spec where
  maxCores : BitVec 32
  guaranteedCores : BitVec 32
  preferredSocket : ℕ
  qdelayUs : ℕ

/-- `struct numa_data`; `recentCores` has `NRECENT` entries, newest first. -/
structure Data where
  isCongested : Bool
  waking : Bool
  qdelayUs : ℕ
  threadsGuaranteed : ℤ
  threadsMax : ℤ
  threadsActive : ℤ
  preferredSocket : ℕ
  recentCores : List ℕ

/-- Processes stand for their `struct numa_data`; `hist` has `NHIST` entries for every core. -/
structure State where
  attached : List ℕ
  data : ℕ → Data
  cores : ℕ → Option ℕ
  hist : ℕ → List (Option ℕ)
  congestedProcs : List ℕ
  idleCores : Bitmap

/-- What the scheduler layer says when a core is asked for: `sched_threads_avail`, and whether
`sched_run_on_core` succeeds. -/
structure Answer where
  threadsAvail : ℕ
  runs : Bool

def nrecent : ℕ := 4
def nhist : ℕ := 4

def numaProcIsPreemptible (cursd nextsd : Data) : Bool :=
  cursd.threadsActive > cursd.threadsGuaranteed && nextsd.threadsActive < nextsd.threadsGuaranteed

namespace State

def setData (s : State) (p : ℕ) (f : Data → Data) : State :=
  { s with data := update s.data p (f (s.data p)) }

def cleanupCore (s : State) (core : ℕ) : State :=
  match s.cores core with
  | none => s
  | some p =>
    { s.setData p fun d =>
        { d with threadsActive := d.threadsActive-1, recentCores := core::d.recentCores.dropLast } with
      cores := update s.cores core none
      hist := update s.hist core (some p::(s.hist core).dropLast) }

def markCongested (s : State) (p : ℕ) : State :=
  if (s.data p).isCongested then s
  else { s.setData p fun d => { d with isCongested := true } with
    congestedProcs := p::s.congestedProcs }

def unmarkCongested (s : State) (p : ℕ) : State :=
  if (s.data p).isCongested then
    { s.setData p fun d => { d with isCongested := false } with
      congestedProcs := s.congestedProcs.erase p }
  else s

/-- After a successful `malloc`. -/
def numaAttach (mc : Machine) (s : State) (p : ℕ) (cfg : Spec) : State :=
  { s.setData p fun _ =>
      { isCongested := false
        waking := false
        qdelayUs := cfg.qdelayUs
        threadsGuaranteed := cfg.guaranteedCores.toInt
        threadsMax := cfg.maxCores.toInt
        threadsActive := 0
        preferredSocket := cfg.preferredSocket
        recentCores := List.replicate nrecent (mc.cores.headD 0) } with
    attached := p::s.attached }

def numaDetach (s : State) (p : ℕ) : State :=
  let s := s.unmarkCongested p
  { s with
    attached := s.attached.erase p
    cores := fun i => if s.cores i = some p then none else s.cores i
    hist := fun i => (s.hist i).map fun o => if o = some p then none else o }

/-- The flag says whether it returned 0. -/
def numaRunKthreadOnCore (s : State) (a : Answer) (p core : ℕ) : State × Bool :=
  if a.threadsAvail = 0 then (s,false)
  else if !a.runs then (s,false)
  else
    let s := s.cleanupCore core
    ({ s.setData p fun d => { d with threadsActive := d.threadsActive+1 } with
       cores := update s.cores core (some p)
       idleCores := s.idleCores.clear core },true)

/-- The core is not the process's own, and it is free or may be preempted. -/
def takeable (s : State) (p core : ℕ) : Bool :=
  s.cores core != some p &&
    (s.cores core).all fun q => numaProcIsPreemptible (s.data q) (s.data p)

end State

/-- `sched_allowed_cores`, which has `NCPU` bits. -/
def allowedCores (mc : Machine) : Bitmap := fun i => decide (i < mc.ncpu) && mc.allowed i

/-- A recently used core, or the sibling of one. -/
def recentCore (mc : Machine) (s : State) (p : ℕ) (subset : Bitmap) : List ℕ → Option ℕ
  | [] => none
  | core::rest =>
    if !subset core then recentCore mc s p subset rest
    else if s.takeable p core then some core
    else if !subset (mc.siblings core) then recentCore mc s p subset rest
    else if s.takeable p (mc.siblings core) then some (mc.siblings core)
    else recentCore mc s p subset rest

/-- `NCPU` if there is no core. -/
def numaChooseCoreInSubset (mc : Machine) (s : State) (p : ℕ) (subset : Bitmap) : ℕ :=
  match recentCore mc s p subset (s.data p).recentCores with
  | some core => core
  | none =>
    let core := Bitmap.findNextSet (fun i => s.idleCores i && subset i) mc.ncpu 0
    if core ≠ mc.ncpu then core
    else ((subset.setBits mc.ncpu).find? fun i => s.cores i != some p &&
      (s.cores i).any fun q => numaProcIsPreemptible (s.data q) (s.data p)).getD mc.ncpu

/-- A core that the process runs on and whose sibling it may take. -/
def siblingMatch (mc : Machine) (s : State) (p core : ℕ) : Bool :=
  s.cores core == some p && s.takeable p (mc.siblings core)

def numaChooseCore (mc : Machine) (cfg : Config) (s : State) (p : ℕ) : ℕ :=
  match (if cfg.noht then none else mc.cores.find? (siblingMatch mc s p)) with
  | some core => mc.siblings core
  | none =>
    let core := numaChooseCoreInSubset mc s p
      fun i => allowedCores mc i && cfg.sockets (s.data p).preferredSocket i
    if core ≠ mc.ncpu then core
    else if cfg.numaCount > 1 then numaChooseCoreInSubset mc s p (allowedCores mc)
    else mc.ncpu

def numaAddKthread (mc : Machine) (cfg : Config) (a : Answer) (s : State) (p : ℕ) : State × Bool :=
  if (s.data p).threadsActive ≥ (s.data p).threadsMax then (s,false)
  else
    let core := numaChooseCore mc cfg s p
    if core = mc.ncpu then (s,false) else s.numaRunKthreadOnCore a p core

def Data.congested (d : Data) (m : Delay) : Bool :=
  (if d.qdelayUs = 0 then m.busy else m.hdelay ≥ d.qdelayUs) || m.parkedBusy

def numaNotifyCongested (mc : Machine) (cfg : Config) (a : Answer) (s : State) (p : ℕ) (m : Delay) :
    State :=
  if (s.data p).waking then s.setData p fun d => { d with waking := false }
  else if !(s.data p).congested m then s.unmarkCongested p
  else if (s.data p).isCongested then s
  else
    let (s,ok) := numaAddKthread mc cfg a s p
    if ok then s else s.markCongested p

/-- The congested processes in the histories of a core and its sibling, read in turn. -/
def histChoice (s : State) : List (Option ℕ) → List (Option ℕ) → Option ℕ
  | h::hs,g::gs =>
    ((h.filter fun p => (s.data p).isCongested).or
      (g.filter fun p => (s.data p).isCongested)).or (histChoice s hs gs)
  | _,_ => none

def numaChooseKthread (mc : Machine) (s : State) (core : ℕ) : Option ℕ :=
  (((s.cores (mc.siblings core)).filter fun p => (s.data p).isCongested).or
    (histChoice s (s.hist core) (s.hist (mc.siblings core)))).or s.congestedProcs.head?

/-- One round of the loop of `numa_sched_poll`. -/
def pollCore (mc : Machine) (a : ℕ → Answer) (s : State) (core : ℕ) : State :=
  let s := ((s.cores core).elim s s.unmarkCongested).cleanupCore core
  match numaChooseKthread mc s core with
  | none => { s with idleCores := s.idleCores.set core }
  | some p =>
    let (s,ok) := s.numaRunKthreadOnCore (a core) p core
    if ok then s else ({ s with idleCores := s.idleCores.set core } : State).markCongested p

def numaSchedPoll (mc : Machine) (a : ℕ → Answer) (s : State) (idle : Bitmap) : State :=
  (idle.setBits mc.ncpu).foldl (pollCore mc a) s

/-! ### Runs of the policy -/

inductive Event
  | attach (p : ℕ) (cfg : Spec)
  | detach (p : ℕ)
  | notifyCoreNeeded (p : ℕ) (a : Answer)
  | notifyCongested (p : ℕ) (m : Delay) (a : Answer)
  | schedPoll (idle : Bitmap) (a : ℕ → Answer)

def step (mc : Machine) (cfg : Config) (s : State) : Event → Option State
  | .attach p spec => if p ∈ s.attached then none else some (s.numaAttach mc p spec)
  | .detach p => if p ∈ s.attached then some (s.numaDetach p) else none
  | .notifyCoreNeeded p a => if p ∈ s.attached then some (numaAddKthread mc cfg a s p).1 else none
  | .notifyCongested p m a =>
    if p ∈ s.attached then some (numaNotifyCongested mc cfg a s p m) else none
  | .schedPoll idle a => some (numaSchedPoll mc a s idle)

/-- After `numa_init`; the records of processes do not exist yet. -/
def start (mc : Machine) (data : ℕ → Data) : State :=
  ⟨[],data,fun _ => none,fun _ => List.replicate nhist none,[],allowedCores mc⟩

/-- What `numa_choose_core` promises: no core, or an allowed one that does not run the process and
is free or held by a process above its guarantee while this one is below its own. -/
def RightChoice (mc : Machine) (s : State) (p core : ℕ) : Prop :=
  core = mc.ncpu ∨ core ∈ mc.cores ∧ s.cores core ≠ some p ∧
    (s.cores core = none ∨ ∃ q, s.cores core = some q ∧
      (s.data q).threadsGuaranteed < (s.data q).threadsActive ∧
      (s.data p).threadsActive < (s.data p).threadsGuaranteed)

/-- A process with an idle thread is not refused the core with `-EINVAL`. -/
def Accepted (mc : Machine) (p core : ℕ) : Prop :=
  ∀ t : Sched, (t.procs p).idleThreads ≠ [] →
    (schedRunOnCore mc p core).Always (fun r _ => r ≠ .error .einval) t

/-! ### Idle cores are free -/

def IdleFree (s : State) : Prop := ∀ c, s.idleCores c = true → s.cores c = none

section Idle

variable {mc : Machine} {cfg : Config} {s t : State} {p core : ℕ} {a : Answer}

theorem start_idleFree (mc : Machine) (data : ℕ → Data) : IdleFree (start mc data) :=
  fun _ _ => rfl

theorem IdleFree.of_le (h : IdleFree s) (hcores : ∀ c, t.cores c = s.cores c ∨ t.cores c = none)
    (hidle : t.idleCores = s.idleCores) : IdleFree t := by
  intro c hc
  rw [hidle] at hc
  rcases hcores c with heq | heq
  · rw [heq,h c hc]
  · exact heq

theorem cleanupCore_cores (s : State) (core : ℕ) :
    (s.cleanupCore core).cores = update s.cores core none := by
  unfold State.cleanupCore
  cases h : s.cores core with
  | none => exact (update_eq_self_iff.mpr h.symm).symm
  | some p => rfl

theorem cleanupCore_idleCores (s : State) (core : ℕ) :
    (s.cleanupCore core).idleCores = s.idleCores := by
  unfold State.cleanupCore
  cases s.cores core <;> rfl

@[simp] theorem markCongested_cores : (s.markCongested p).cores = s.cores := by
  unfold State.markCongested; split <;> rfl
@[simp] theorem markCongested_idleCores : (s.markCongested p).idleCores = s.idleCores := by
  unfold State.markCongested; split <;> rfl
@[simp] theorem unmarkCongested_cores : (s.unmarkCongested p).cores = s.cores := by
  unfold State.unmarkCongested; split <;> rfl
@[simp] theorem unmarkCongested_idleCores : (s.unmarkCongested p).idleCores = s.idleCores := by
  unfold State.unmarkCongested; split <;> rfl

theorem IdleFree.cleanupCore (h : IdleFree s) : IdleFree (s.cleanupCore core) := by
  refine h.of_le (fun c => ?_) (cleanupCore_idleCores s core)
  rw [cleanupCore_cores]
  by_cases hc : c = core
  · subst hc
    exact Or.inr (update_self _ _ _)
  · exact Or.inl (update_of_ne hc _ _)

theorem IdleFree.set (h : IdleFree s) (hcore : s.cores core = none) :
    IdleFree { s with idleCores := s.idleCores.set core } := by
  intro c hc
  rcases Bitmap.set_eq_true.mp hc with rfl | hc
  · exact hcore
  · exact h c hc

theorem IdleFree.run (h : IdleFree s) : IdleFree (s.numaRunKthreadOnCore a p core).1 := by
  unfold State.numaRunKthreadOnCore
  split
  · exact h
  split
  · exact h
  · intro c hc
    obtain ⟨hne,hset⟩ := Bitmap.clear_eq_true.mp hc
    dsimp only
    rw [update_of_ne hne]
    exact h.cleanupCore c hset

theorem run_failed (h : (s.numaRunKthreadOnCore a p core).2 = false) :
    (s.numaRunKthreadOnCore a p core).1 = s := by
  unfold State.numaRunKthreadOnCore at h ⊢
  split
  · rfl
  split
  · rfl
  · simp_all

theorem IdleFree.addKthread (h : IdleFree s) : IdleFree (numaAddKthread mc cfg a s p).1 := by
  unfold numaAddKthread
  dsimp only
  split
  · exact h
  split
  · exact h
  · exact h.run

theorem IdleFree.notifyCongested {m : Delay} (h : IdleFree s) :
    IdleFree (numaNotifyCongested mc cfg a s p m) := by
  unfold numaNotifyCongested
  dsimp only
  split
  · exact h
  split
  · exact h.of_le (fun c => Or.inl (by rw [unmarkCongested_cores])) unmarkCongested_idleCores
  split
  · exact h
  split
  · exact h.addKthread
  · exact h.addKthread.of_le (fun c => Or.inl (by rw [markCongested_cores])) markCongested_idleCores

theorem IdleFree.pollCore {a : ℕ → Answer} (h : IdleFree s) : IdleFree (pollCore mc a s core) := by
  have hclean : IdleFree (((s.cores core).elim s s.unmarkCongested).cleanupCore core) := by
    apply IdleFree.cleanupCore
    cases s.cores core with
    | none => exact h
    | some q => exact h.of_le (fun c => Or.inl (by simp)) (by simp)
  have hfree : (((s.cores core).elim s s.unmarkCongested).cleanupCore core).cores core = none := by
    rw [cleanupCore_cores,update_self]
  unfold Numa.pollCore
  generalize ((s.cores core).elim s s.unmarkCongested).cleanupCore core = t at hclean hfree
  dsimp only
  split
  · exact hclean.set hfree
  split
  · exact hclean.run
  · rename_i q _ hfail
    rw [Bool.not_eq_true] at hfail
    rw [run_failed hfail]
    exact (hclean.set hfree).of_le (fun c => Or.inl (by simp)) (by simp)

theorem step_idleFree {e : Event} (h : IdleFree s) (hstep : step mc cfg s e = some t) :
    IdleFree t := by
  cases e with
  | attach q spec =>
    obtain ⟨-,hstep⟩ := ite_none_left_eq_some.mp hstep
    obtain rfl := some.inj hstep
    exact h.of_le (fun c => Or.inl rfl) rfl
  | detach q =>
    obtain ⟨-,hstep⟩ := ite_none_right_eq_some.mp hstep
    obtain rfl := some.inj hstep
    refine h.of_le (fun c => ?_) (by simp [State.numaDetach])
    simp only [State.numaDetach,unmarkCongested_cores]
    split
    · exact Or.inr rfl
    · exact Or.inl rfl
  | notifyCoreNeeded q a =>
    obtain ⟨-,hstep⟩ := ite_none_right_eq_some.mp hstep
    obtain rfl := some.inj hstep
    exact h.addKthread
  | notifyCongested q m a =>
    obtain ⟨-,hstep⟩ := ite_none_right_eq_some.mp hstep
    obtain rfl := some.inj hstep
    exact h.notifyCongested
  | schedPoll idle a =>
    obtain rfl := some.inj hstep
    unfold numaSchedPoll
    induction idle.setBits mc.ncpu generalizing s with
    | nil => exact h
    | cons c cs ih => exact ih h.pollCore rfl

end Idle

/-! ### The choice -/

section Choice

variable {mc : Machine} {cfg : Config} {s : State} {p core : ℕ} {subset : Bitmap}

theorem mem_cores_of_allowed (h : allowedCores mc core = true) : core ∈ mc.cores := by
  rw [allowedCores,Bool.and_eq_true,decide_eq_true_eq] at h
  exact mem_cores.mpr h

theorem rightChoice_of_takeable (hc : core ∈ mc.cores) (h : s.takeable p core = true) :
    RightChoice mc s p core := by
  rw [State.takeable,Bool.and_eq_true,bne_iff_ne] at h
  refine Or.inr ⟨hc,h.1,?_⟩
  cases hq : s.cores core with
  | none => exact Or.inl rfl
  | some q =>
    have hpre : numaProcIsPreemptible (s.data q) (s.data p) = true := by simpa [hq] using h.2
    simp only [numaProcIsPreemptible,Bool.and_eq_true,decide_eq_true_eq] at hpre
    exact Or.inr ⟨q,rfl,hpre⟩

theorem recentCore_right (hsub : ∀ c, subset c = true → c ∈ mc.cores) {cs : List ℕ}
    (h : recentCore mc s p subset cs = some core) : RightChoice mc s p core := by
  induction cs with
  | nil => simp [recentCore] at h
  | cons c cs ih =>
    rw [recentCore] at h
    split at h
    · exact ih h
    rename_i hc
    split at h
    · rename_i htake
      obtain rfl := some.inj h
      exact rightChoice_of_takeable (hsub _ (by simpa using hc)) htake
    split at h
    · exact ih h
    rename_i hsib
    split at h
    · rename_i htake
      obtain rfl := some.inj h
      exact rightChoice_of_takeable (hsub _ (by simpa using hsib)) htake
    · exact ih h

theorem chooseInSubset_right (h : IdleFree s) (hsub : ∀ c, subset c = true → c ∈ mc.cores) :
    RightChoice mc s p (numaChooseCoreInSubset mc s p subset) := by
  unfold numaChooseCoreInSubset
  split
  · rename_i c hc
    exact recentCore_right hsub hc
  dsimp only
  split
  · rename_i hidle
    rcases Bitmap.findNextSet_spec (fun i => s.idleCores i && subset i) mc.ncpu 0 with
      hnone | ⟨-,-,hset⟩
    · exact absurd hnone hidle
    · rw [Bool.and_eq_true] at hset
      have hfree := h _ hset.1
      exact Or.inr ⟨hsub _ hset.2,by simp [hfree],Or.inl hfree⟩
  · cases hfind : (subset.setBits mc.ncpu).find? _ with
    | none => exact Or.inl rfl
    | some c =>
      have hc := (Bitmap.mem_setBits.mp (List.mem_of_find?_eq_some hfind)).2
      have hpre := List.find?_some hfind
      change RightChoice mc s p c
      refine rightChoice_of_takeable (hsub c hc) ?_
      rw [Bool.and_eq_true] at hpre
      rw [State.takeable,Bool.and_eq_true]
      refine ⟨hpre.1,?_⟩
      cases hq : s.cores c with
      | none => rfl
      | some q => simpa [hq] using hpre.2

theorem chooseCore_right_of_none (h : IdleFree s)
    (hnone : (if cfg.noht then none else mc.cores.find? (siblingMatch mc s p)) = none) :
    RightChoice mc s p (numaChooseCore mc cfg s p) := by
  unfold numaChooseCore
  rw [hnone]
  dsimp only
  split
  · apply chooseInSubset_right h
    intro c hc
    rw [Bool.and_eq_true] at hc
    exact mem_cores_of_allowed hc.1
  split
  · exact chooseInSubset_right h fun c hc => mem_cores_of_allowed hc
  · exact Or.inl rfl

theorem accepted_of_mem (h : core ∈ mc.cores) : Accepted mc p core := by
  intro t hidle
  apply schedRunOnCore_always
  · rintro (hempty | hout)
    · exact absurd hempty hidle
    · exact absurd h hout
  · intro i _ _
    simp

theorem find_cores_eq_some {f : ℕ → Bool} (h : mc.cores.find? f = some core) :
    core ∈ mc.cores ∧ f core = true ∧ ∀ c ∈ mc.cores, c < core → f c = false := by
  refine ⟨List.mem_of_find?_eq_some h,List.find?_some h,fun c hc hlt => ?_⟩
  have hsorted : mc.cores.Pairwise (· < ·) := List.pairwise_lt_range.filter _
  obtain ⟨-,l₁,l₂,heq,hbefore⟩ := List.find?_eq_some_iff_append.mp h
  rw [heq] at hsorted hc
  rcases List.mem_append.mp hc with hc | hc
  · simpa using hbefore c hc
  rcases List.mem_cons.mp hc with rfl | hc
  · omega
  · have := (List.pairwise_cons.mp (List.pairwise_append.mp hsorted).2.1).1 c hc
    omega

/-- The first core of the process whose sibling it may take decides. -/
theorem chooseCore_right_iff (cfg : Config) (h : IdleFree s) :
    RightChoice mc s p (numaChooseCore mc cfg s p) ↔
      cfg.noht = true ∨ ∀ c ∈ mc.cores, siblingMatch mc s p c = true →
        (∀ c' ∈ mc.cores, c' < c → siblingMatch mc s p c' = false) →
        mc.allowed (mc.siblings c) = true := by
  cases hfind : (if cfg.noht then none else mc.cores.find? (siblingMatch mc s p)) with
  | none =>
    refine iff_of_true (chooseCore_right_of_none h hfind) ?_
    rw [ite_eq_left_iff,Bool.not_eq_true] at hfind
    refine or_iff_not_imp_left.mpr fun hno c hc hmatch => ?_
    have := List.find?_eq_none.mp (hfind (Bool.eq_false_iff.mpr hno)) c hc
    exact absurd hmatch this
  | some c =>
    obtain ⟨hno,hcores⟩ := ite_none_left_eq_some.mp hfind
    obtain ⟨hc,hmatch,hfirst⟩ := find_cores_eq_some hcores
    have hchoice : numaChooseCore mc cfg s p = mc.siblings c := by
      unfold numaChooseCore
      rw [hfind]
    have hlt := mc.siblings_lt c (mem_cores.mp hc).1
    rw [hchoice,or_iff_right hno]
    constructor
    · rintro (hend | ⟨hmem,-⟩)
      · omega
      · intro c' hc' hmatch' hfirst'
        -- both are the first
        obtain hlt | rfl | hlt := lt_trichotomy c c'
        · rw [hfirst' c hc hlt] at hmatch
          contradiction
        · exact (mem_cores.mp hmem).2
        · rw [hfirst c' hc' hlt] at hmatch'
          contradiction
    · intro hallowed
      rw [siblingMatch,Bool.and_eq_true] at hmatch
      exact rightChoice_of_takeable
        (mem_cores.mpr ⟨hlt,hallowed c hc (by rw [siblingMatch,Bool.and_eq_true]; exact hmatch) hfirst⟩)
        hmatch.2

end Choice

theorem numa_choice_iff {mc : Machine} {cfg : Config} {data : ℕ → Data} {es : List Event} {s : State}
    (hrun : Machine.run (step mc cfg) (start mc data) es = some s) (p : ℕ) :
    (RightChoice mc s p (numaChooseCore mc cfg s p) ∧
      (numaChooseCore mc cfg s p ≠ mc.ncpu → Accepted mc p (numaChooseCore mc cfg s p))) ↔
    cfg.noht = true ∨ ∀ c ∈ mc.cores, siblingMatch mc s p c = true →
      (∀ c' ∈ mc.cores, c' < c → siblingMatch mc s p c' = false) →
      mc.allowed (mc.siblings c) = true := by
  have hidle : IdleFree s := Machine.run_keeps step_idleFree (start_idleFree mc data) hrun
  rw [← chooseCore_right_iff cfg hidle]
  refine and_iff_left_of_imp fun hright hne => ?_
  exact accepted_of_mem (hright.resolve_left hne).1

/-- Eight hyperthreads, of which three are allowed; the sibling of core 4 is not. -/
def threeCores : Machine where
  ncpu := 8
  allowed i := i = 4 ∨ i = 6 ∨ i = 7
  siblings i := i ^^^ 1
  ncpu_le := by decide
  siblings_lt := by decide

def oneSocket : Config := ⟨false,1,fun _ _ => true⟩

def noData : ℕ → Data := fun _ => ⟨false,false,0,0,0,0,0,[]⟩

/-- Process 2 has core 6 and is sent to the sibling of that. -/
theorem numa_choice_iff_sibling : ∃ s,
    Machine.run (step threeCores oneSocket) (start threeCores noData)
      [.attach 1 ⟨2,2,0,0⟩,.attach 2 ⟨2,2,0,0⟩,.notifyCoreNeeded 1 ⟨2,true⟩,
        .notifyCoreNeeded 2 ⟨2,true⟩] = some s ∧
    siblingMatch threeCores s 2 6 = true ∧ numaChooseCore threeCores oneSocket s 2 = 7 ∧
    RightChoice threeCores s 2 7 := by
  obtain ⟨s,hrun,hmatch,hchosen,hallowed⟩ :
      ∃ s ∈ Machine.run (step threeCores oneSocket) (start threeCores noData)
        [.attach 1 ⟨2,2,0,0⟩,.attach 2 ⟨2,2,0,0⟩,.notifyCoreNeeded 1 ⟨2,true⟩,
          .notifyCoreNeeded 2 ⟨2,true⟩],
      siblingMatch threeCores s 2 6 = true ∧ numaChooseCore threeCores oneSocket s 2 = 7 ∧
      ∀ c ∈ threeCores.cores, siblingMatch threeCores s 2 c = true →
        threeCores.allowed (threeCores.siblings c) = true := by decide +kernel
  have hright := (numa_choice_iff hrun 2).mpr (Or.inr fun c hc hm _ => hallowed c hc hm)
  rw [hchosen] at hright
  exact ⟨s,hrun,hmatch,hchosen,hright.1⟩

/-- A process on core 4 asks for a second core and is sent to core 5, which is not allowed. -/
theorem numa_chooses_outside :
    ∃ s ∈ Machine.run (step threeCores oneSocket) (start threeCores noData)
        [.attach 1 ⟨2,2,0,0⟩,.notifyCoreNeeded 1 ⟨2,true⟩],
      numaChooseCore threeCores oneSocket s 1 = 5 ∧ threeCores.allowed 5 = false := by
  decide +kernel

end Vessel.Numa
