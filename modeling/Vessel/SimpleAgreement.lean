import Vessel.Simple
import Vessel.SchedInvariant

/-! The simple policy keeps its own table of which process runs where.
At every poll boundary this table agrees with the threads that the scheduler layer
reports.  During a poll it lags behind at the cores that have just gone idle; the
invariant therefore carries the list of these cores. -/
namespace Vessel

open Prog Function List

/-! ### What the scheduler layer reports -/

section Reports

variable {mc : Machine} {base : ℕ → ℕ} {s : Sched} {core c : ℕ}

theorem getThread_setCore_of_ne (s : Sched) (f : CoreState → CoreState) (hc : c ≠ core) :
    (s.setCore core f).schedGetThreadOnCore c = s.schedGetThreadOnCore c := by
  simp [Sched.schedGetThreadOnCore,Sched.setCore_of_ne s hc]

@[simp] theorem getThread_release (s : Sched) (o : Option ThreadRef) :
    (s.release o).schedGetThreadOnCore c = s.schedGetThreadOnCore c := by
  simp [Sched.schedGetThreadOnCore]

theorem getThread_afterRun (th : Option ThreadRef) (h : CoreOk (s.state core)) :
    (s.afterRun th core).schedGetThreadOnCore =
      update s.schedGetThreadOnCore core th := by
  funext c
  by_cases hc : c = core
  · subst hc
    have hp := h.pending_wait
    unfold Sched.afterRun
    split
    · simp [Sched.schedGetThreadOnCore]
    · rename_i hw
      have hp' : (s.state c).pending = false := by
        by_contra hn
        exact hw (hp (by simpa using hn))
      simp [Sched.schedGetThreadOnCore,hp']
  · rw [update_of_ne hc]
    unfold Sched.afterRun
    split <;> rw [getThread_setCore_of_ne _ _ hc,getThread_release]

theorem pollDone_threads : (pollDone core).Always (fun _ s' =>
    s'.schedGetThreadOnCore = s.schedGetThreadOnCore) s := by
  apply pollDone_always
  · rfl
  · intro _ hp
    funext c
    by_cases hc : c = core
    · subst hc
      simp [Sched.schedGetThreadOnCore,Sched.afterSwitch,hp]
    · rw [Sched.afterSwitch,getThread_setCore_of_ne _ _ hc,getThread_release]
  · intro _ _
    funext c
    by_cases hc : c = core
    · subst hc
      simp [Sched.schedGetThreadOnCore]
    · exact getThread_setCore_of_ne s _ hc

theorem pollIdle_threads (h : SchedInv mc base s) : (pollIdle core).Always (fun b s' =>
    s'.schedGetThreadOnCore =
      if b then update s.schedGetThreadOnCore core none else s.schedGetThreadOnCore) s := by
  have hpend : (s.state core).wait = false → (s.state core).pending = false := by
    intro hw
    by_contra hp
    have := (h.core_ok core).pending_wait (by simpa using hp)
    simp [hw] at this
  apply pollIdle_always
  · rfl
  · intro hw _ ht
    funext c
    by_cases hc : c = core
    · subst hc
      simp [Sched.schedGetThreadOnCore,hpend hw,ht]
    · simp [getThread_setCore_of_ne s _ hc,hc]
  · intro t _ _ _
    funext c
    by_cases hc : c = (s.thread t).core
    · subst hc
      simp [Sched.schedGetThreadOnCore]
    · simp [getThread_setCore_of_ne s _ hc]
  · intro t hw _ _
    funext c
    by_cases hc : c = core
    · subst hc
      simp [Sched.schedGetThreadOnCore,hpend hw]
    · simp [getThread_setCore_of_ne _ _ hc,hc]

theorem schedFastPass_threads (h : SchedInv mc base s) :
    (schedFastPass mc).Always (fun idle s' => SchedInv mc base s' ∧ s'.clients = s.clients ∧
      ∀ c, if idle c then c ∈ mc.cores ∧ s'.schedGetThreadOnCore c = none
        else s'.schedGetThreadOnCore c = s.schedGetThreadOnCore c) s := by
  have hloop := always_fold (s:=s) (f:=fun (idle : Bitmap) core => do
      pollDone core
      let b ← pollIdle core
      return if b then idle.set core else idle)
    (fun rest idle s' => rest ⊆ mc.cores ∧ SchedInv mc base s' ∧ s'.clients = s.clients ∧
      ∀ c, if idle c then c ∈ mc.cores ∧ s'.schedGetThreadOnCore c = none
        else s'.schedGetThreadOnCore c = s.schedGetThreadOnCore c) ?_ .empty
    mc.cores ⟨List.Subset.refl _,h,rfl,fun _ => rfl⟩
  · exact hloop.mono fun _ _ hs => hs.2
  · rintro idle core rest s' ⟨hsub,hs,hcl,hth⟩
    have hc : core ∈ mc.cores := hsub mem_cons_self
    simp only [always_bind,always_pure]
    refine ((pollDone_inv hs hc).and pollDone_threads).mono fun _ s₁ h₁ => ?_
    refine ((pollIdle_inv h₁.1.1 hc).and (pollIdle_threads h₁.1.1)).mono fun b s₂ h₂ => ?_
    refine ⟨fun c hr => hsub (mem_cons_of_mem _ hr),h₂.1.1,
      h₂.1.2.trans (h₁.1.2.trans hcl),fun c => ?_⟩
    rw [h₂.2,h₁.2]
    have hthc := hth c
    cases b with
    | false => exact hthc
    | true =>
      by_cases hcc : c = core
      · subst hcc
        simpa using hc
      · simpa [Bitmap.set_of_ne hcc,hcc] using hthc

end Reports

/-! ### The policy's own tables -/

/-- The number of cores that the table gives to process `p`. -/
def coreCount (cores : ℕ → Option ℕ) (p n : ℕ) : ℕ := (List.range n).countP fun c => cores c = some p

theorem coreCount_succ (cores : ℕ → Option ℕ) (p n : ℕ) :
    coreCount cores p (n+1) = coreCount cores p n + if cores n = some p then 1 else 0 := by
  simp [coreCount,range_succ,countP_append]

theorem coreCount_update_of_le (cores : ℕ → Option ℕ) (p : ℕ) (x : Option ℕ) {core n : ℕ}
    (hn : n ≤ core) : coreCount (update cores core x) p n = coreCount cores p n := by
  induction n with
  | zero => rfl
  | succ n ih =>
    have hne : n ≠ core := by omega
    rw [coreCount_succ,coreCount_succ,ih (by omega),update_of_ne hne]

theorem coreCount_update (cores : ℕ → Option ℕ) (p : ℕ) (x : Option ℕ) {core n : ℕ}
    (hc : core < n) :
    (coreCount (update cores core x) p n : ℤ) =
      coreCount cores p n - (if cores core = some p then 1 else 0) +
        if x = some p then 1 else 0 := by
  induction n with
  | zero => omega
  | succ n ih =>
    rw [coreCount_succ,coreCount_succ]
    by_cases hn : n = core
    · subst hn
      rw [coreCount_update_of_le _ _ _ le_rfl,update_self]
      push_cast
      ring
    · have h := ih (by omega)
      rw [update_of_ne hn]
      push_cast
      rw [h]
      ring

section Fields

variable (s : Simple) (core p q : ℕ) (f : SimpleData → SimpleData)

@[simp] theorem setData_self : (s.setData p f).data p = f (s.data p) := by simp [Simple.setData]
theorem setData_of_ne {p q : ℕ} (h : q ≠ p) : (s.setData p f).data q = s.data q := by
  simp [Simple.setData,h]
@[simp] theorem setData_cores : (s.setData p f).cores = s.cores := rfl
@[simp] theorem setData_hist : (s.setData p f).hist = s.hist := rfl
@[simp] theorem setData_congestedProcs : (s.setData p f).congestedProcs = s.congestedProcs := rfl
@[simp] theorem setData_idleCores : (s.setData p f).idleCores = s.idleCores := rfl

@[simp] theorem cleanup_cores :
    (s.cleanupCore core).cores = update s.cores core none := by
  cases h : s.cores core with
  | none =>
    have hself : update s.cores core none = s.cores := by
      rw [← h,update_eq_self]
    simp only [Simple.cleanupCore,h,hself]
  | some p => simp [Simple.cleanupCore,h]
@[simp] theorem cleanup_congestedProcs : (s.cleanupCore core).congestedProcs = s.congestedProcs := by
  cases h : s.cores core <;> simp [Simple.cleanupCore,h]
@[simp] theorem cleanup_idleCores : (s.cleanupCore core).idleCores = s.idleCores := by
  cases h : s.cores core <;> simp [Simple.cleanupCore,h]
theorem cleanup_data : (s.cleanupCore core).data q =
    { s.data q with threadsActive :=
        (s.data q).threadsActive - if s.cores core = some q then 1 else 0 } := by
  cases h : s.cores core with
  | none => simp [Simple.cleanupCore,h]
  | some p =>
    by_cases hq : q = p
    · subst hq
      simp [Simple.cleanupCore,h]
    · simp [Simple.cleanupCore,h,setData_of_ne _ _ hq,Ne.symm hq]
theorem mem_cleanup_hist {c : ℕ} (h : some q ∈ (s.cleanupCore core).hist c) :
    s.cores core = some q ∨ some q ∈ s.hist c := by
  cases hp : s.cores core with
  | none => exact Or.inr (by simpa [Simple.cleanupCore,hp] using h)
  | some p =>
    by_cases hc : c = core
    · subst hc
      simp only [Simple.cleanupCore,hp,update_self,mem_cons,Option.some.injEq] at h
      rcases h with rfl | h
      · exact Or.inl rfl
      · exact Or.inr (dropLast_subset _ h)
    · exact Or.inr (by simpa [Simple.cleanupCore,hp,hc] using h)

@[simp] theorem run_cores : (s.runOnCore p core).cores = update s.cores core (some p) := by
  simp [Simple.runOnCore]
@[simp] theorem run_congestedProcs : (s.runOnCore p core).congestedProcs = s.congestedProcs := by
  simp [Simple.runOnCore]
@[simp] theorem run_idleCores : (s.runOnCore p core).idleCores = s.idleCores.clear core := by
  simp [Simple.runOnCore]
theorem run_threadsActive : ((s.runOnCore p core).data q).threadsActive =
    (s.data q).threadsActive - (if s.cores core = some q then 1 else 0) +
      if p = q then 1 else 0 := by
  by_cases hq : q = p
  · subst hq
    simp [Simple.runOnCore,cleanup_data]
  · simp [Simple.runOnCore,setData_of_ne _ _ hq,cleanup_data,Ne.symm hq]
theorem run_isCongested :
    ((s.runOnCore p core).data q).isCongested = (s.data q).isCongested := by
  by_cases hq : q = p
  · subst hq
    simp [Simple.runOnCore,cleanup_data]
  · simp [Simple.runOnCore,setData_of_ne _ _ hq,cleanup_data]

end Fields

/-- The tables fit together, and only clients are in them. -/
structure SimpleOk (mc : Machine) (clients : List ℕ) (s : Simple) : Prop where
  cores_client : ∀ c p, s.cores c = some p → p ∈ clients
  hist_client : ∀ c p, some p ∈ s.hist c → p ∈ clients
  congested_client : ∀ p ∈ s.congestedProcs, p ∈ clients
  congested_iff : ∀ p ∈ clients, (s.data p).isCongested = true ↔ p ∈ s.congestedProcs
  congested_nodup : s.congestedProcs.Nodup
  active : ∀ p ∈ clients, (s.data p).threadsActive = coreCount s.cores p mc.ncpu
  idle : ∀ c, s.idleCores c = true → s.cores c = none ∧ c ∈ mc.cores

section Tables

variable {mc : Machine} {clients : List ℕ} {s : Simple} {core p : ℕ}

/-- Limits, delays and the `waking` flag do not matter for the tables. -/
theorem simpleOk_setData (h : SimpleOk mc clients s) {f : SimpleData → SimpleData}
    (hc : (f (s.data p)).isCongested = (s.data p).isCongested)
    (ha : (f (s.data p)).threadsActive = (s.data p).threadsActive) :
    SimpleOk mc clients (s.setData p f) := by
  have hdata : ∀ q, ((s.setData p f).data q).isCongested = (s.data q).isCongested ∧
      ((s.setData p f).data q).threadsActive = (s.data q).threadsActive := by
    intro q
    by_cases hq : q = p
    · subst hq
      simpa using ⟨hc,ha⟩
    · simp [setData_of_ne _ _ hq]
  constructor
  · exact h.cores_client
  · exact h.hist_client
  · exact h.congested_client
  · intro q hq
    rw [(hdata q).1]
    exact h.congested_iff q hq
  · exact h.congested_nodup
  · intro q hq
    rw [(hdata q).2]
    exact h.active q hq
  · exact h.idle

theorem simpleOk_mark (h : SimpleOk mc clients s) (hp : p ∈ clients) :
    SimpleOk mc clients (s.markCongested p) := by
  by_cases hc : (s.data p).isCongested = true
  · simpa only [Simple.markCongested,if_pos hc] using h
  · have hnot : p ∉ s.congestedProcs := fun hm => hc ((h.congested_iff p hp).mpr hm)
    simp only [Simple.markCongested,if_neg hc]
    constructor
    · exact h.cores_client
    · exact h.hist_client
    · intro q hq
      rcases mem_cons.mp hq with rfl | hq
      · exact hp
      · exact h.congested_client q hq
    · intro q hq
      by_cases hqp : q = p
      · subst hqp
        simp
      · simpa [setData_of_ne _ _ hqp,hqp] using h.congested_iff q hq
    · exact nodup_cons.mpr ⟨hnot,h.congested_nodup⟩
    · intro q hq
      have ha := h.active q hq
      by_cases hqp : q = p
      · subst hqp
        simpa using ha
      · simpa [setData_of_ne _ _ hqp] using ha
    · exact h.idle

theorem simpleOk_unmark (h : SimpleOk mc clients s) (p : ℕ) :
    SimpleOk mc clients (s.unmarkCongested p) := by
  by_cases hc : (s.data p).isCongested = true
  · have hmem : ∀ q, q ∈ s.congestedProcs.erase p ↔ q ≠ p ∧ q ∈ s.congestedProcs := fun q =>
      h.congested_nodup.mem_erase_iff
    simp only [Simple.unmarkCongested,if_pos hc]
    constructor
    · exact h.cores_client
    · exact h.hist_client
    · exact fun q hq => h.congested_client q ((hmem q).mp hq).2
    · intro q hq
      simp only [hmem]
      by_cases hqp : q = p
      · subst hqp
        simp
      · simpa [setData_of_ne _ _ hqp,hqp] using h.congested_iff q hq
    · exact h.congested_nodup.erase p
    · intro q hq
      have ha := h.active q hq
      by_cases hqp : q = p
      · subst hqp
        simpa using ha
      · simpa [setData_of_ne _ _ hqp] using ha
    · exact h.idle
  · simpa only [Simple.unmarkCongested,if_neg hc] using h

theorem simpleOk_cleanup (h : SimpleOk mc clients s) (hc : core < mc.ncpu) :
    SimpleOk mc clients (s.cleanupCore core) := by
  constructor
  · intro c q hq
    by_cases hcc : c = core
    · simp [hcc] at hq
    · exact h.cores_client c q (by simpa [hcc] using hq)
  · intro c q hq
    rcases mem_cleanup_hist s core q hq with hq | hq
    · exact h.cores_client core q hq
    · exact h.hist_client c q hq
  · simpa using h.congested_client
  · intro q hq
    simpa [cleanup_data] using h.congested_iff q hq
  · simpa using h.congested_nodup
  · intro q hq
    rw [cleanup_data,cleanup_cores,coreCount_update _ _ _ hc,h.active q hq]
    simp
  · intro c hi
    have hidle := h.idle c (by simpa using hi)
    by_cases hcc : c = core
    · subst hcc
      simpa using hidle.2
    · simpa [hcc] using hidle

theorem simpleOk_run (h : SimpleOk mc clients s) (hp : p ∈ clients) (hc : core < mc.ncpu) :
    SimpleOk mc clients (s.runOnCore p core) := by
  have hclean := simpleOk_cleanup h hc
  constructor
  · intro c q hq
    by_cases hcc : c = core
    · subst hcc
      obtain rfl : p = q := by simpa using hq
      exact hp
    · exact h.cores_client c q (by simpa [hcc] using hq)
  · exact hclean.hist_client
  · simpa using h.congested_client
  · intro q hq
    rw [run_isCongested,run_congestedProcs]
    exact h.congested_iff q hq
  · simpa using h.congested_nodup
  · intro q hq
    rw [run_threadsActive,run_cores,coreCount_update _ _ _ hc,h.active q hq]
    simp
  · intro c hi
    rw [run_idleCores,Bitmap.clear_eq_true] at hi
    have hidle := h.idle c hi.2
    simpa [hi.1] using hidle

theorem simpleOk_setIdle (h : SimpleOk mc clients s) (hfree : s.cores core = none)
    (hc : core ∈ mc.cores) :
    SimpleOk mc clients { s with idleCores := s.idleCores.set core } := by
  have hidle : ∀ c, s.idleCores.set core c = true → s.cores c = none ∧ c ∈ mc.cores := by
    intro c hi
    rcases Bitmap.set_eq_true.mp hi with rfl | hi
    · exact ⟨hfree,hc⟩
    · exact h.idle c hi
  exact { __ := h, idle := hidle }

theorem simpleOk_attach (h : SimpleOk mc clients s) (hp : p ∉ clients) (cfg : SchedSpec) :
    SimpleOk mc (clients ++ [p]) (s.attach p cfg) := by
  have hnone : coreCount s.cores p mc.ncpu = 0 := by
    rw [coreCount,countP_eq_zero]
    intro c _ hc
    exact hp (h.cores_client c p (by simpa using hc))
  constructor
  · exact fun c q hq => mem_append_left _ (h.cores_client c q hq)
  · exact fun c q hq => mem_append_left _ (h.hist_client c q hq)
  · exact fun q hq => mem_append_left _ (h.congested_client q hq)
  · intro q hq
    by_cases hqp : q = p
    · subst hqp
      simpa [Simple.attach] using fun hm => hp (h.congested_client q hm)
    · have hq' : q ∈ clients := by simpa [hqp] using hq
      simpa [Simple.attach,setData_of_ne _ _ hqp] using h.congested_iff q hq'
  · exact h.congested_nodup
  · intro q hq
    by_cases hqp : q = p
    · subst hqp
      simp [Simple.attach,hnone]
    · have hq' : q ∈ clients := by simpa [hqp] using hq
      simpa [Simple.attach,setData_of_ne _ _ hqp] using h.active q hq'
  · exact h.idle

end Tables

/-! ### Both layers -/

/-- The process that the scheduler layer reports on a core. -/
def World.reported (w : World) (c : ℕ) : Option ℕ :=
  (w.sched.schedGetThreadOnCore c).map ThreadRef.proc

/-- The table agrees with the scheduler layer, except at the cores in `rest`, which are
empty and have yet to be looked at. -/
structure PolicyInv (mc : Machine) (base : ℕ → ℕ) (rest : List ℕ) (w : World) : Prop where
  sched : SchedInv mc base w.sched
  shadow : ∀ c, c ∉ rest → w.simple.cores c = w.reported c
  gone : ∀ c ∈ rest, c ∈ mc.cores ∧ w.reported c = none
  simple : SimpleOk mc w.sched.clients w.simple

/-- What a successful `simple_run_kthread_on_core` leaves behind. -/
def World.afterRun (w : World) (p i core : ℕ) : World where
  sched := (w.sched.enable p i core).afterRun (some ⟨p,i⟩) core
  simple := w.simple.runOnCore p core

@[simp] theorem afterRun_simple (w : World) (p i core : ℕ) :
    (w.afterRun p i core).simple = w.simple.runOnCore p core := rfl
@[simp] theorem afterRun_sched_clients (w : World) (p i core : ℕ) :
    (w.afterRun p i core).sched.clients = w.sched.clients := afterRun_clients _ _ _

section Programs

variable {mc : Machine} {base : ℕ → ℕ} {rest : List ℕ} {w : World} {p core : ℕ}

theorem onSched_always {α : Type} {q : Prog Sched Op Res α} {post : α → World → Prop} :
    (onSched q).Always post w ↔ q.Always (fun a s => post a (w.setSched s)) w.sched := by
  unfold onSched
  apply always_zoom
  · exact fun _ _ => rfl
  · exact fun _ _ _ => rfl
  · exact fun _ => rfl

theorem simpleRunKthreadOnCore_always {post : Except Errno Unit → World → Prop}
    (herr : ∀ e, post (.error e) w)
    (hok : ∀ i ∈ (w.sched.procs p).idleThreads, core ∈ mc.cores →
      post (.ok ()) (w.afterRun p i core)) :
    (simpleRunKthreadOnCore mc p core).Always post w := by
  simp only [simpleRunKthreadOnCore,always_bind,always_read,always_ite,always_pure]
  refine ⟨fun _ => herr _,fun _ => ?_⟩
  rw [onSched_always]
  apply schedRunOnCore_always
  · exact fun _ => herr _
  · exact fun i hi hc => hok i hi hc

theorem reported_afterRun (h : SchedInv mc base w.sched) (i : ℕ) :
    (w.afterRun p i core).reported = update w.reported core (some p) := by
  have hget := getThread_afterRun (s:=w.sched.enable p i core) (some ⟨p,i⟩) (h.core_ok core)
  funext c
  simp only [World.reported,World.afterRun,hget]
  by_cases hc : c = core
  · subst hc
    simp
  · simp only [update_of_ne hc]
    rfl

theorem policyInv_run (h : PolicyInv mc base rest w) {i : ℕ} (hp : p ∈ w.sched.clients)
    (hi : i ∈ (w.sched.procs p).idleThreads) (hc : core ∈ mc.cores) (hr : core ∉ rest) :
    PolicyInv mc base rest (w.afterRun p i core) := by
  have hlt := (mem_cores.mp hc).1
  constructor
  · exact schedInv_runOnCore h.sched hp hi hc
  · intro c hcr
    rw [reported_afterRun h.sched,afterRun_simple,run_cores]
    by_cases hcc : c = core
    · simp [hcc]
    · simpa [hcc] using h.shadow c hcr
  · intro c hcr
    have hcc : c ≠ core := fun hcc => hr (hcc ▸ hcr)
    rw [reported_afterRun h.sched,update_of_ne hcc]
    exact h.gone c hcr
  · rw [afterRun_sched_clients]
    exact simpleOk_run h.simple hp hlt

theorem policyInv_records (h : PolicyInv mc base rest w) {f : Simple → Simple}
    (hcores : (f w.simple).cores = w.simple.cores) (hf : SimpleOk mc w.sched.clients (f w.simple)) :
    PolicyInv mc base rest (w.setSimple f) := by
  constructor
  · exact h.sched
  · intro c hc
    exact (congrFun hcores c).trans (h.shadow c hc)
  · exact h.gone
  · exact hf

@[simp] theorem mark_cores (s : Simple) (p : ℕ) : (s.markCongested p).cores = s.cores := by
  unfold Simple.markCongested
  split <;> rfl
@[simp] theorem unmark_cores (s : Simple) (p : ℕ) : (s.unmarkCongested p).cores = s.cores := by
  unfold Simple.unmarkCongested
  split <;> rfl

/-- `simple_add_kthread` adds the chosen core below the limit, or changes nothing. -/
theorem simpleAddKthread_always {post : Except Errno Unit → World → Prop}
    (herr : ∀ e, post (.error e) w)
    (hok : ∀ i ∈ (w.sched.procs p).idleThreads, simpleChooseCore mc w p ∈ mc.cores →
      (w.simple.data p).threadsActive < (w.simple.data p).threadsMax →
      post (.ok ()) (w.afterRun p i (simpleChooseCore mc w p))) :
    (simpleAddKthread mc p).Always post w := by
  simp only [simpleAddKthread,always_bind,always_read,always_ite,always_pure]
  refine ⟨fun _ => herr _,fun hmax => ⟨fun _ => herr _,fun _ => ?_⟩⟩
  apply simpleRunKthreadOnCore_always
  · exact herr
  · exact fun i hi hc => hok i hi hc (by omega)

theorem setProcToSteal_always {post : Unit → World → Prop} {b : Bool} (h : post () w) :
    (setProcToSteal p b).Always post w := by
  simp only [setProcToSteal,always_bind,always_read]
  refine always_fold (fun _ _ w' => post () w') ?_ () _ h
  intro _ i _ w' hw
  simp only [always_ite,always_tell,always_pure]
  exact ⟨fun _ => hw,fun _ => hw⟩

theorem simpleAddKthread_inv (h : PolicyInv mc base [] w) (hp : p ∈ w.sched.clients) :
    (simpleAddKthread mc p).Always (fun _ w' => PolicyInv mc base [] w' ∧
      w'.sched.clients = w.sched.clients) w := by
  apply simpleAddKthread_always
  · exact fun _ => ⟨h,rfl⟩
  · exact fun i hi hc _ => ⟨policyInv_run h hp hi hc (by simp),afterRun_sched_clients _ _ _ _⟩

theorem simpleNotifyCongested_inv (h : PolicyInv mc base [] w) (hp : p ∈ w.sched.clients)
    (m : Delay) :
    (simpleNotifyCongested mc p m).Always (fun _ w' => PolicyInv mc base [] w' ∧
      w'.sched.clients = w.sched.clients) w := by
  simp only [simpleNotifyCongested,always_bind,always_read]
  apply setProcToSteal_always
  simp only [always_ite,always_update,always_pure,always_bind]
  refine ⟨fun _ => ?_,fun _ => ⟨fun _ => ?_,fun _ => ⟨fun _ => ⟨h,trivial⟩,fun _ => ?_⟩⟩⟩
  · exact ⟨policyInv_records h rfl (simpleOk_setData h.simple rfl rfl),rfl⟩
  · exact ⟨policyInv_records h (unmark_cores _ _) (simpleOk_unmark h.simple p),rfl⟩
  · refine (simpleAddKthread_inv h hp).mono fun r w' hw => ?_
    cases r with
    | ok u => exact hw
    | error e =>
      have hp' : p ∈ w'.sched.clients := by rw [hw.2]; exact hp
      exact ⟨policyInv_records hw.1 (mark_cores _ _) (simpleOk_mark hw.1.simple hp'),hw.2⟩

theorem schedDetectIo_inv (h : PolicyInv mc base [] w) (hp : p ∈ w.sched.clients) (is : List ℕ) :
    (schedDetectIo mc p is).Always (fun _ w' => PolicyInv mc base [] w' ∧
      w'.sched.clients = w.sched.clients) w := by
  induction is with
  | nil => exact ⟨h,rfl⟩
  | cons i is ih =>
    simp only [schedDetectIo,simpleNotifyCoreNeeded,always_bind,always_perform,always_ite,
      always_pure]
    exact fun b => ⟨fun _ => simpleAddKthread_inv h hp,fun _ => ih⟩

theorem notifyClients_inv (h : PolicyInv mc base [] w) (slow : Bool) :
    (fold (fun _ p => if slow then schedMeasureDelay mc p else schedDetectIoFor mc p) ()
      w.sched.clients).Always (fun _ w' => PolicyInv mc base [] w' ∧
        w'.sched.clients = w.sched.clients) w := by
  have hround : ∀ (u : Unit) p ps w', (p::ps ⊆ w.sched.clients ∧ PolicyInv mc base [] w' ∧
      w'.sched.clients = w.sched.clients) →
      (if slow then schedMeasureDelay mc p else schedDetectIoFor mc p).Always
        (fun _ w'' => ps ⊆ w.sched.clients ∧ PolicyInv mc base [] w'' ∧
          w''.sched.clients = w.sched.clients) w' := by
    rintro - p ps w' ⟨hsub,hw,hcl⟩
    have hp : p ∈ w'.sched.clients := by
      rw [hcl]
      exact hsub mem_cons_self
    have hps : ps ⊆ w.sched.clients := fun q hq => hsub (mem_cons_of_mem _ hq)
    simp only [schedMeasureDelay,schedDetectIoFor,always_ite,always_bind,always_perform,
      always_read,always_pure]
    refine ⟨fun _ m => ?_,fun _ => ⟨fun _ => ?_,fun _ => ⟨hps,hw,hcl⟩⟩⟩
    · exact (simpleNotifyCongested_inv hw hp m).mono fun _ _ h' => ⟨hps,h'.1,h'.2.trans hcl⟩
    · exact (schedDetectIo_inv hw hp _).mono fun _ _ h' => ⟨hps,h'.1,h'.2.trans hcl⟩
  have hloop := always_fold (fun ps _ w' => ps ⊆ w.sched.clients ∧ PolicyInv mc base [] w' ∧
    w'.sched.clients = w.sched.clients) hround () w.sched.clients ⟨List.Subset.refl _,h,rfl⟩
  exact hloop.mono fun _ _ hw => hw.2

theorem fastPass_inv (h : PolicyInv mc base [] w) :
    (onSched (schedFastPass mc)).Always (fun idle w' =>
      PolicyInv mc base (idle.setBits mc.ncpu) w' ∧ w'.sched.clients = w.sched.clients) w := by
  rw [onSched_always]
  refine (schedFastPass_threads h.sched).mono fun idle s hs => ?_
  obtain ⟨hinv,hcl,hth⟩ := hs
  have hbits : ∀ c, c ∈ idle.setBits mc.ncpu ↔ idle c = true := by
    intro c
    rw [Bitmap.mem_setBits]
    refine ⟨fun hc => hc.2,fun hi => ⟨?_,hi⟩⟩
    have hc := hth c
    simp only [hi,if_true] at hc
    exact (mem_cores.mp hc.1).1
  refine ⟨⟨hinv,fun c hc => ?_,fun c hc => ?_,?_⟩,hcl⟩
  · have hthc := hth c
    rw [hbits] at hc
    simp only [hc] at hthc
    have hsh := h.shadow c (by simp)
    rw [World.reported] at hsh ⊢
    exact hsh.trans (by rw [show (w.setSched s).sched = s from rfl,hthc])
  · have hthc := hth c
    rw [hbits] at hc
    simp only [hc,if_true] at hthc
    exact ⟨hthc.1,by simp [World.reported,World.setSched,hthc.2]⟩
  · have hsim := h.simple
    rw [← hcl] at hsim
    exact hsim

theorem policyInv_notice (h : PolicyInv mc base (core::rest) w) :
    PolicyInv mc base rest (w.setSimple fun s =>
      ((s.cores core).elim s s.unmarkCongested).cleanupCore core) := by
  have hgone := h.gone core mem_cons_self
  have hok : SimpleOk mc w.sched.clients
      ((w.simple.cores core).elim w.simple w.simple.unmarkCongested) := by
    cases w.simple.cores core with
    | none => exact h.simple
    | some p => exact simpleOk_unmark h.simple p
  have hcores : ((w.simple.cores core).elim w.simple w.simple.unmarkCongested).cores =
      w.simple.cores := by
    cases w.simple.cores core with
    | none => rfl
    | some p => exact unmark_cores _ _
  constructor
  · exact h.sched
  · intro c hc
    simp only [World.setSimple,cleanup_cores,hcores]
    by_cases hcc : c = core
    · subst hcc
      rw [update_self]
      exact hgone.2.symm
    · rw [update_of_ne hcc]
      exact h.shadow c (by simp [hcc,hc])
  · exact fun c hc => h.gone c (mem_cons_of_mem _ hc)
  · exact simpleOk_cleanup hok (mem_cores.mp hgone.1).1

theorem histChoice_mem {hs gs : List (Option ℕ)} (h : histChoice w hs gs = some p) :
    some p ∈ hs ∨ some p ∈ gs := by
  induction hs generalizing gs with
  | nil => simp [histChoice] at h
  | cons x hs ih =>
    cases gs with
    | nil => simp [histChoice] at h
    | cons y gs =>
      rw [histChoice] at h
      rcases Option.or_eq_some_iff.mp h with h | ⟨-,h⟩
      · rcases Option.or_eq_some_iff.mp h with h | ⟨-,h⟩
        · left
          simp [(Option.filter_eq_some_iff.mp h).1]
        · right
          simp [(Option.filter_eq_some_iff.mp h).1]
      · exact (ih h).imp (mem_cons_of_mem _) (mem_cons_of_mem _)

theorem simpleChooseKthread_client (h : SimpleOk mc w.sched.clients w.simple)
    (hp : simpleChooseKthread mc w core = some p) : p ∈ w.sched.clients := by
  rcases Option.or_eq_some_iff.mp hp with hp | ⟨-,hp⟩
  · rcases Option.or_eq_some_iff.mp hp with hp | ⟨-,hp⟩
    · exact h.cores_client _ p (Option.filter_eq_some_iff.mp hp).1
    · rcases histChoice_mem hp with hm | hm
      · exact h.hist_client _ p hm
      · exact h.hist_client _ p hm
  · exact h.congested_client p (mem_of_find?_eq_some hp)

theorem simplePollCore_inv (h : PolicyInv mc base (core::rest) w) (hr : core ∉ rest) :
    (simplePollCore mc core).Always (fun _ w' => PolicyInv mc base rest w' ∧
      w'.sched.clients = w.sched.clients) w := by
  have hc := (h.gone core mem_cons_self).1
  have h₁ := policyInv_notice h
  simp only [simplePollCore,always_bind,always_update,always_read]
  generalize hw : (w.setSimple fun s =>
    ((s.cores core).elim s s.unmarkCongested).cleanupCore core) = w₁ at h₁
  have hcl : w₁.sched.clients = w.sched.clients := by rw [← hw]; rfl
  have hfree : w₁.simple.cores core = none := by
    rw [← hw]
    simp [World.setSimple]
  have hidle := simpleOk_setIdle h₁.simple hfree hc
  cases hk : simpleChooseKthread mc w₁ core with
  | none => exact ⟨policyInv_records h₁ rfl hidle,hcl⟩
  | some p =>
    have hp := simpleChooseKthread_client h₁.simple hk
    simp only [always_bind]
    apply simpleRunKthreadOnCore_always
    · exact fun _ => ⟨policyInv_records h₁ (mark_cores _ _) (simpleOk_mark hidle hp),hcl⟩
    · exact fun i hi _ => ⟨policyInv_run h₁ hp hi hc hr,(afterRun_sched_clients _ _ _ _).trans hcl⟩

theorem simpleSchedPoll_inv {idle : Bitmap} {n : ℕ} (hn : n = idle.popcount mc.ncpu)
    (h : PolicyInv mc base (idle.setBits mc.ncpu) w) :
    (simpleSchedPoll mc n idle).Always (fun _ w' => PolicyInv mc base [] w' ∧
      w'.sched.clients = w.sched.clients) w := by
  simp only [simpleSchedPoll,always_ite,always_pure]
  refine ⟨fun h0 => ⟨?_,trivial⟩,fun _ => ?_⟩
  · have hnil : idle.setBits mc.ncpu = [] := length_eq_zero_iff.mp (hn.symm.trans h0)
    rwa [hnil] at h
  · have hround : ∀ (u : Unit) core rest w', ((core::rest).Nodup ∧
        PolicyInv mc base (core::rest) w' ∧ w'.sched.clients = w.sched.clients) →
        (simplePollCore mc core).Always (fun _ w'' => rest.Nodup ∧ PolicyInv mc base rest w'' ∧
          w''.sched.clients = w.sched.clients) w' := by
      rintro - core rest w' ⟨hnd,hw,hcl⟩
      obtain ⟨hr,hnd⟩ := nodup_cons.mp hnd
      exact (simplePollCore_inv hw hr).mono fun _ _ h' => ⟨hnd,h'.1,h'.2.trans hcl⟩
    have hloop := always_fold (fun rest _ w' => rest.Nodup ∧ PolicyInv mc base rest w' ∧
      w'.sched.clients = w.sched.clients) hround () _ ⟨Bitmap.nodup_setBits,h,rfl⟩
    exact hloop.mono fun _ _ hw => hw.2

theorem simplePoll_inv (h : PolicyInv mc base [] w) (slow : Bool) :
    (simplePoll mc slow).Always (fun _ w' => PolicyInv mc base [] w' ∧
      w'.sched.clients = w.sched.clients) w := by
  simp only [simplePoll,always_bind,always_read,always_tell]
  refine (notifyClients_inv h slow).mono fun _ w₁ h₁ => ?_
  refine (fastPass_inv h₁.1).mono fun idle w₂ h₂ => ?_
  refine (simpleSchedPoll_inv rfl h₂.1).mono fun _ w₃ h₃ => ?_
  exact ⟨h₃.1,h₃.2.trans (h₂.2.trans h₁.2)⟩

theorem policyInv_attach (h : PolicyInv mc base [] w) (hp : p ∉ w.sched.clients) (cfg : SchedSpec)
    (ok : Bool) : PolicyInv mc base [] (w.attach p cfg ok) := by
  have hsched := schedAttachProc_inv h.sched hp ok
  have hshadow : ∀ c, w.simple.cores c = w.reported c := fun c => h.shadow c (by simp)
  cases ok with
  | false => exact ⟨hsched,fun c _ => hshadow c,by simp,h.simple⟩
  | true => exact ⟨hsched,fun c _ => hshadow c,by simp,simpleOk_attach h.simple hp cfg⟩

theorem simpleBody_inv (h : PolicyInv mc base [] w) {c : SimpleCall} (hc : c.allowed w) :
    (simpleBody mc c).Always (fun _ w' => PolicyInv mc base [] w') w := by
  cases c with
  | attach p cfg ok => exact policyInv_attach h hc cfg ok
  | notifyCongested p m => exact (simpleNotifyCongested_inv h hc m).mono fun _ _ h' => h'.1
  | notifyCoreNeeded p =>
    simp only [simpleBody,simpleNotifyCoreNeeded,always_bind,always_pure]
    exact (simpleAddKthread_inv h hc).mono fun _ _ h' => h'.1
  | poll slow => exact (simplePoll_inv h slow).mono fun _ _ h' => h'.1

end Programs

/-! ### Every run -/

/-- Any sequence of calls, with any answers from the cores and the queues. -/
def SimpleRun (mc : Machine) : World → World → Prop :=
  Relation.ReflTransGen fun w w' =>
    ∃ c : SimpleCall, c.allowed w ∧ ∃ v, (simpleBody mc c).Returns w v w'

/-- Nothing runs and no process is attached. -/
def World.initial (mc : Machine) (w : World) : Prop :=
  (∀ c, w.sched.state c = ⟨none,none,false,false,false⟩) ∧ w.sched.clients = [] ∧
    w.simple.initial mc

section Runs

variable {mc : Machine} {w₀ w : World}

theorem policyInv_initial (h : w₀.initial mc) :
    PolicyInv mc (fun p => (w₀.sched.procs p).ref) [] w₀ := by
  obtain ⟨hstate,hclients,hcores,hhist,hcong,hidle⟩ := h
  constructor
  · exact schedInv_initial hstate hclients
  · intro c _
    simp [hcores,World.reported,Sched.schedGetThreadOnCore,hstate]
  · simp
  · constructor
    · simp [hcores]
    · simp [hhist,mem_replicate]
    · simp [hcong]
    · simp [hclients]
    · simp [hcong]
    · simp [hclients]
    · intro c hc
      rw [hidle] at hc
      exact ⟨hcores c,mem_cores.mpr (by simpa using hc)⟩

theorem simpleRun_inv (h₀ : w₀.initial mc) (hrun : SimpleRun mc w₀ w) :
    PolicyInv mc (fun p => (w₀.sched.procs p).ref) [] w := by
  induction hrun with
  | refl => exact policyInv_initial h₀
  | tail _ hstep ih =>
    obtain ⟨c,hc,v,hret⟩ := hstep
    exact (simpleBody_inv ih hc).returns hret

/-- A call with the answers that a fixed memory gives. -/
def World.replay (mc : Machine) (m : Mem) (w : World) (c : SimpleCall) : World :=
  ((simpleBody mc c).answer (fun op => (exec 0 op m).1) w).2

theorem replay_run (hrun : SimpleRun mc w₀ w) (m : Mem) {c : SimpleCall} (hc : c.allowed w) :
    SimpleRun mc w₀ (w.replay mc m c) :=
  hrun.tail ⟨c,hc,_,answer_returns _ _ _⟩

end Runs

/-- The policy's table shows for every client exactly the cores on which the scheduler
layer reports one of its threads, its count is the number of these cores, idle cores
are free, and the congested processes are those on the list, once each. -/
theorem policy_agrees (mc : Machine) {w₀ w : World} (h₀ : w₀.initial mc)
    (hrun : SimpleRun mc w₀ w) :
    (∀ p ∈ w.sched.clients,
      (∀ c, w.simple.cores c = some p ↔
        ∃ t, w.sched.schedGetThreadOnCore c = some t ∧ t.proc = p) ∧
      (w.simple.data p).threadsActive =
        (List.range mc.ncpu).countP (fun c => w.simple.cores c = some p) ∧
      ((w.simple.data p).isCongested = true ↔ p ∈ w.simple.congestedProcs)) ∧
    w.simple.congestedProcs.Nodup ∧
    ∀ c, w.simple.idleCores c = true → w.simple.cores c = none := by
  have h := simpleRun_inv h₀ hrun
  refine ⟨fun p hp => ⟨fun c => ?_,h.simple.active p hp,h.simple.congested_iff p hp⟩,
    h.simple.congested_nodup,fun c hc => (h.simple.idle c hc).1⟩
  rw [h.shadow c (by simp),World.reported,Option.map_eq_some_iff]

/-- Two cores that are siblings, and processes with two threads each. -/
def pairMachine : Machine := ⟨2,fun _ => true,fun c => 1-c,by decide,fun _ _ => by omega⟩

def pairWorld : World where
  sched := ⟨fun _ => ⟨none,none,false,false,false⟩,
    fun _ => ⟨1,false,2,0,fun _ => ⟨false,7,0,0⟩,id,[],id⟩,[]⟩
  simple := ⟨fun _ => ⟨false,0,0,0,0,false⟩,fun _ => none,fun _ => List.replicate nhist none,[],
    fun c => decide (c < pairMachine.ncpu) && pairMachine.allowed c⟩

theorem pairWorld_initial : pairWorld.initial pairMachine :=
  ⟨fun _ => rfl,rfl,fun _ => rfl,fun _ => rfl,rfl,fun _ => rfl⟩

/-- Process 0 attaches and asks for a core. -/
theorem policy_agrees_pair : ∃ w, SimpleRun pairMachine pairWorld w ∧ w.sched.clients = [0] ∧
    w.simple.cores 0 = some 0 ∧ ∃ t, w.sched.schedGetThreadOnCore 0 = some t ∧ t.proc = 0 := by
  let w₁ := pairWorld.replay pairMachine .initial (.attach 0 ⟨2,1,0⟩ true)
  let w₂ := w₁.replay pairMachine .initial (.notifyCoreNeeded 0)
  have hrun₁ : SimpleRun pairMachine pairWorld w₁ := replay_run .refl _ (by decide)
  have hrun₂ : SimpleRun pairMachine pairWorld w₂ := replay_run hrun₁ _ (by decide)
  have hcl : w₂.sched.clients = [0] := by decide +kernel
  have hcore : w₂.simple.cores 0 = some 0 := by decide +kernel
  have hagree := (policy_agrees pairMachine pairWorld_initial hrun₂).1 0 (by simp [hcl])
  exact ⟨w₂,hrun₂,hcl,hcore,(hagree.1 0).mp hcore⟩

end Vessel
