import Vessel.Sched
import Mathlib.Data.List.Perm.Basic
import Mathlib.Data.List.Nodup

/-! Core slots of the scheduler layer.
Every active thread stands in one slot of one core, as its current or its pending
thread.  While a call moves a thread it is in no slot for a moment; the invariant
therefore carries the list of threads that are on the way. -/
namespace Vessel

open Prog Function List

/-! ### One process -/

/-- `active_threads`, the back-pointers and the idle list fit together. -/
structure ProcOk (pr : Proc) : Prop where
  place : ∀ i < pr.threadCount, (pr.threads i).active = true →
    (pr.threads i).atIdx < pr.activeThreadCount ∧ pr.activeThreads (pr.threads i).atIdx = i
  at_idx : ∀ j < pr.activeThreadCount, pr.activeThreads j < pr.threadCount ∧
    (pr.threads (pr.activeThreads j)).active = true ∧ (pr.threads (pr.activeThreads j)).atIdx = j
  idle_nodup : pr.idleThreads.Nodup
  mem_idle : ∀ i, i ∈ pr.idleThreads ↔ i < pr.threadCount ∧ (pr.threads i).active = false

section ProcOk

variable {pr : Proc} {i : ℕ}

theorem procOk_attach (pr : Proc) : ProcOk pr.attach where
  place i hi ha := by simp [Proc.attach,show i < pr.threadCount from hi] at ha
  at_idx j hj := by simp [Proc.attach] at hj
  idle_nodup := nodup_range
  mem_idle i := by
    by_cases hi : i < pr.threadCount <;> simp [Proc.attach,hi]

theorem procOk_ref (h : ProcOk pr) (n : ℕ) : ProcOk { pr with ref := n } where
  __ := h

theorem enable_threads (k core : ℕ) : (pr.schedEnableKthread i core).threads k =
    if k = i then { pr.threads i with active := true, core := core, atIdx := pr.activeThreadCount }
    else pr.threads k := by
  split_ifs with hk
  · rw [hk,Proc.enable_self]
  · exact Proc.enable_of_ne _ _ hk

theorem procOk_enable (h : ProcOk pr) (hi : i ∈ pr.idleThreads) (core : ℕ) :
    ProcOk (pr.schedEnableKthread i core) := by
  have hidle := fun k => h.idle_nodup.mem_erase_iff (a:=i) (b:=k)
  have hplace := h.place
  have hat := h.at_idx
  have hmem := h.mem_idle
  constructor
  case idle_nodup => simpa using h.idle_nodup.erase i
  all_goals
    simp only [enable_threads,Proc.enable_count,Proc.enable_activeThreads,Proc.enable_threadCount,
      Proc.enable_idleThreads,update_apply]
    grind -linarith

/-- The thread that leaves and the last one trade places. -/
theorem procOk_disable (h : ProcOk pr) (hlt : i < pr.threadCount)
    (hi : (pr.threads i).active = true) : ProcOk (pr.schedDisableKthread i) := by
  obtain ⟨hat,hpi⟩ := h.place i hlt hi
  have hplace := h.place
  have hlast := h.at_idx
  have hnodup := h.idle_nodup
  have hmem := h.mem_idle
  constructor <;> simp only [Proc.disable_active,Proc.disable_threadCount,Proc.disable_atIdx,
    Proc.disable_count,Proc.disable_activeThreads,Proc.disable_idleThreads,update_apply]
  all_goals grind -linarith

theorem procOk_partition (h : ProcOk pr) :
    (pr.idleThreads ++ (List.range pr.activeThreadCount).map pr.activeThreads).Perm
      (List.range pr.threadCount) := by
  have hinj : ((List.range pr.activeThreadCount).map pr.activeThreads).Nodup := by
    refine List.Nodup.map_on (fun j hj j' hj' he => ?_) nodup_range
    have h1 := (h.at_idx j (mem_range.mp hj)).2.2
    have h2 := (h.at_idx j' (mem_range.mp hj')).2.2
    rw [he] at h1
    exact h1.symm.trans h2
  have hdisj : List.Disjoint pr.idleThreads
      ((List.range pr.activeThreadCount).map pr.activeThreads) := by
    intro i hi ha
    obtain ⟨j,hj,rfl⟩ := mem_map.mp ha
    have h1 := ((h.mem_idle _).mp hi).2
    have h2 := (h.at_idx j (mem_range.mp hj)).2.1
    simp [h1] at h2
  refine (perm_ext_iff_of_nodup (h.idle_nodup.append hinj hdisj) nodup_range).mpr ?_
  intro i
  rw [mem_append,h.mem_idle,mem_map,mem_range]
  constructor
  · rintro (⟨hi,-⟩ | ⟨j,hj,rfl⟩)
    · exact hi
    · exact (h.at_idx j (mem_range.mp hj)).1
  · intro hi
    cases ha : (pr.threads i).active with
    | false => exact Or.inl ⟨hi,rfl⟩
    | true =>
      obtain ⟨hat,hp⟩ := h.place i hi ha
      exact Or.inr ⟨_,mem_range.mpr hat,hp⟩

end ProcOk

/-! ### All processes and all slots -/

/-- The threads in the two slots of every core; `true` selects the pending one. -/
def Sched.slot (s : Sched) (x : ℕ × Bool) : Option ThreadRef :=
  if x.2 then (s.state x.1).pendingTh else (s.state x.1).curTh

/-- An active thread of an attached process. -/
def Live (clients : List ℕ) (procs : ℕ → Proc) (t : ThreadRef) : Prop :=
  t.proc ∈ clients ∧ t.idx < (procs t.proc).threadCount ∧
    ((procs t.proc).threads t.idx).active = true

def home (procs : ℕ → Proc) (t : ThreadRef) : ℕ := ((procs t.proc).threads t.idx).core

/-- Active threads and slots correspond, except for the threads `fl` on their way. -/
@[grind cases]
structure Linked (mc : Machine) (base : ℕ → ℕ) (clients : List ℕ) (procs : ℕ → Proc)
    (slot : ℕ × Bool → Option ThreadRef) (fl : List ThreadRef) : Prop where
  proc_ok : ∀ p ∈ clients, ProcOk (procs p)
  ref_eq : ∀ p ∈ clients, (procs p).ref = base p + (procs p).activeThreadCount
  ref_base : ∀ p, p ∉ clients → (procs p).ref = base p
  home_ok : ∀ p ∈ clients, ∀ i < (procs p).threadCount,
    home procs ⟨p,i⟩ = uintMax ∨ home procs ⟨p,i⟩ ∈ mc.cores
  slot_ok : ∀ x t, slot x = some t → Live clients procs t ∧ home procs t = x.1 ∧ x.1 ∈ mc.cores
  slot_inj : ∀ x y t, slot x = some t → slot y = some t → x = y
  fl_ok : ∀ t ∈ fl, Live clients procs t
  fl_nodup : fl.Nodup
  fl_slot : ∀ t ∈ fl, ∀ x, slot x ≠ some t
  covered : ∀ t, Live clients procs t → t ∈ fl ∨ ∃ x, slot x = some t

section Linked

variable {mc : Machine} {base : ℕ → ℕ} {clients : List ℕ} {procs : ℕ → Proc}
  {slot : ℕ × Bool → Option ThreadRef} {fl : List ThreadRef} {t : ThreadRef}

theorem linked_take (h : Linked mc base clients procs slot fl) {x : ℕ × Bool}
    (hx : slot x = some t) :
    Linked mc base clients procs (update slot x none) (t::fl) := by
  constructor
  case covered =>
    intro u hu
    rcases h.covered u hu with hf | ⟨y,hy⟩
    · exact .inl (mem_cons_of_mem _ hf)
    · by_cases hyx : y = x
      · grind -linarith
      · exact .inr ⟨y,by rw [update_of_ne hyx,hy]⟩
  all_goals grind -linarith

theorem linked_put (h : Linked mc base clients procs slot (t::fl)) {x : ℕ × Bool}
    (hx : slot x = none) (hhome : home procs t = x.1) (hc : x.1 ∈ mc.cores) :
    Linked mc base clients procs (update slot x (some t)) fl := by
  constructor
  case covered =>
    intro u hu
    rcases h.covered u hu with hf | ⟨y,hy⟩
    · rcases mem_cons.mp hf with rfl | hf
      · exact .inr ⟨x,by rw [update_self]⟩
      · exact .inl hf
    · exact .inr ⟨y,by grind -linarith⟩
  all_goals grind -linarith

theorem live_enable {p i : ℕ} (hp : p ∈ clients) (hi : i < (procs p).threadCount) (n core : ℕ) :
    Live clients (update procs p
      (({ procs p with ref := n } : Proc).schedEnableKthread i core)) t ↔
      t = ⟨p,i⟩ ∨ Live clients procs t := by
  obtain ⟨q,k⟩ := t
  by_cases hq : q = p
  · subst hq
    by_cases hk : k = i
    · subst hk
      simp [Live,hp,hi]
    · simp [Live,hk,Proc.enable_of_ne]
  · simp [Live,hq]

theorem home_enable (procs : ℕ → Proc) (t : ThreadRef) (p i n core : ℕ) :
    home (update procs p (({ procs p with ref := n } : Proc).schedEnableKthread i core)) t =
      if t = ⟨p,i⟩ then core else home procs t := by
  obtain ⟨q,k⟩ := t
  by_cases hq : q = p
  · subst hq
    by_cases hk : k = i
    · subst hk
      simp [home]
    · simp [home,hk,Proc.enable_of_ne]
  · simp [home,hq]

theorem linked_enable (h : Linked mc base clients procs slot fl) {p i core : ℕ}
    (hp : p ∈ clients) (hi : i ∈ (procs p).idleThreads) (hc : core ∈ mc.cores) :
    Linked mc base clients (update procs p
      (({ procs p with ref := (procs p).ref + 1 } : Proc).schedEnableKthread i core))
      slot (⟨p,i⟩::fl) := by
  have hok := h.proc_ok p hp
  obtain ⟨hlt,hin⟩ := (hok.mem_idle i).mp hi
  have hnew : ¬Live clients procs ⟨p,i⟩ := fun hl => by simp [Live,hin] at hl
  have hlive := fun u => live_enable (t:=u) hp hlt ((procs p).ref+1) core
  have hhome := fun u => home_enable procs u p i ((procs p).ref+1) core
  have hproc := procOk_enable (procOk_ref hok ((procs p).ref+1)) hi core
  have href := Proc.enable_ref { procs p with ref := (procs p).ref+1 } i core
  have hcount := Proc.enable_count { procs p with ref := (procs p).ref+1 } i core
  have htotal := Proc.enable_threadCount { procs p with ref := (procs p).ref+1 } i core
  constructor
  case covered => exact fun u hu => by grind -linarith [h.covered u]
  all_goals grind -linarith

/-- The processes after `sched_disable_kthread` and `proc_put`. -/
def releaseProcs (procs : ℕ → Proc) : Option ThreadRef → ℕ → Proc
  | none => procs
  | some t => update procs t.proc
      { (procs t.proc).schedDisableKthread t.idx with ref := (procs t.proc).ref - 1 }

theorem live_release (u : ThreadRef) :
    Live clients (releaseProcs procs (some t)) u ↔ u ≠ t ∧ Live clients procs u := by
  obtain ⟨p,i⟩ := t
  obtain ⟨q,k⟩ := u
  by_cases hq : q = p
  · subst hq
    by_cases hk : k = i <;> simp [Live,releaseProcs,hk]
  · simp [Live,releaseProcs,hq]

@[simp] theorem home_release (o : Option ThreadRef) (u : ThreadRef) :
    home (releaseProcs procs o) u = home procs u := by
  cases o with
  | none => rfl
  | some t =>
    by_cases hq : u.proc = t.proc
    · simp [home,releaseProcs,hq]
    · simp [home,releaseProcs,hq]

theorem linked_release (h : Linked mc base clients procs slot (t::fl)) :
    Linked mc base clients (releaseProcs procs (some t)) slot fl := by
  obtain ⟨hp,hlt,ha⟩ := h.fl_ok t mem_cons_self
  have hok := h.proc_ok t.proc hp
  have hpos := (hok.place t.idx hlt ha).1
  have hproc := procOk_ref (procOk_disable hok hlt ha) ((procs t.proc).ref-1)
  have hlive : ∀ u,Live clients (releaseProcs procs (some t)) u ↔ _ := live_release
  have hhome : ∀ u,home (releaseProcs procs (some t)) u = _ := home_release (some t)
  have hcount := Proc.disable_count (procs t.proc) t.idx
  have htotal := Proc.disable_threadCount (procs t.proc) t.idx
  have hsame : ∀ q,q ≠ t.proc → releaseProcs procs (some t) q = procs q := fun q hq =>
    update_of_ne hq _ _
  have hself : releaseProcs procs (some t) t.proc =
      { (procs t.proc).schedDisableKthread t.idx with ref := (procs t.proc).ref-1 } :=
    update_self ..
  constructor
  case covered => exact fun u hu => by grind -linarith [h.covered u]
  all_goals grind -linarith

theorem linked_takeOut (h : Linked mc base clients procs slot []) (x : ℕ × Bool) :
    Linked mc base clients procs (update slot x none) (slot x).toList := by
  cases hx : slot x with
  | none =>
    rw [← hx,update_eq_self]
    simpa [hx] using h
  | some t => exact linked_take h hx

theorem linked_other (h : Linked mc base clients procs slot fl) {p : ℕ} {pr : Proc}
    (hp : p ∉ clients) (href : pr.ref = (procs p).ref) :
    Linked mc base clients (update procs p pr) slot fl := by
  have hsame : ∀ q ∈ clients, update procs p pr q = procs q := fun q hq =>
    update_of_ne (ne_of_mem_of_not_mem hq hp) _ _
  have hlive : ∀ u, Live clients (update procs p pr) u ↔ Live clients procs u := fun u =>
    and_congr_right fun hu => by rw [hsame _ hu]
  have hhome : ∀ u, u.proc ∈ clients → home (update procs p pr) u = home procs u :=
    fun u hu => by rw [home,home,hsame _ hu]
  constructor
  case covered => exact fun u hu => h.covered u ((hlive u).mp hu)
  all_goals grind -linarith [Live]

theorem linked_client (h : Linked mc base clients procs slot fl) {p : ℕ} (hp : p ∉ clients)
    (pr : Proc) (hpr : procs p = pr.attach) :
    Linked mc base (clients ++ [p]) procs slot fl := by
  have hlive : ∀ u, Live (clients ++ [p]) procs u ↔ Live clients procs u := by
    intro u
    by_cases hup : u.proc = p
    · have hdead : ¬Live (clients ++ [p]) procs u := by
        rintro ⟨-,hlt,ha⟩
        rw [hup,hpr] at hlt ha
        simp [Proc.attach,show u.idx < pr.threadCount from hlt] at ha
      exact iff_of_false hdead fun hl => hp (hup ▸ hl.1)
    · simp [Live,hup]
  have hattach : ∀ i < pr.threadCount,home procs ⟨p,i⟩ = uintMax := fun i hi => by
    simp [home,hpr,Proc.attach,hi]
  have hproc := procOk_attach pr
  have hcount : pr.attach.activeThreadCount = 0 := rfl
  have htotal : pr.attach.threadCount = pr.threadCount := rfl
  constructor
  case covered => exact fun u hu => h.covered u ((hlive u).mp hu)
  all_goals grind -linarith

theorem linked_replace {th : Option ThreadRef} (h : Linked mc base clients procs slot th.toList)
    {x : ℕ × Bool} (hhome : ∀ t ∈ th, home procs t = x.1) (hc : x.1 ∈ mc.cores) :
    Linked mc base clients (releaseProcs procs (slot x)) (update slot x th) [] := by
  have hfree : Linked mc base clients (releaseProcs procs (slot x))
      (update slot x none) th.toList := by
    cases ho : slot x with
    | none =>
      rw [← ho,update_eq_self,ho]
      exact h
    | some o => exact linked_release (linked_take h ho)
  cases th with
  | none => exact hfree
  | some t =>
    have hput := linked_put hfree (x:=x) (update_self ..)
      (by rw [home_release]; exact hhome t rfl) hc
    rwa [update_idem] at hput

end Linked

/-! ### The calls -/

/-- The flags of a core against its two slots. -/
structure CoreOk (k : CoreState) : Prop where
  idle_ok : k.idle = true → k.curTh = none ∧ k.wait = false ∧ k.pending = false
  pending_wait : k.pending = true → k.wait = true
  pendingTh_ok : k.pendingTh.isSome → k.pending = true

structure SchedInv (mc : Machine) (base : ℕ → ℕ) (s : Sched) : Prop where
  linked : Linked mc base s.clients s.procs s.slot []
  core_ok : ∀ c, CoreOk (s.state c)

namespace Sched

variable (s : Sched) (core : ℕ) (o th : Option ThreadRef)

@[simp] theorem slot_true : s.slot (core,true) = (s.state core).pendingTh := rfl
@[simp] theorem slot_false : s.slot (core,false) = (s.state core).curTh := rfl
@[simp] theorem release_procs : (s.release o).procs = releaseProcs s.procs o := by
  cases o with
  | none => rfl
  | some t => simp [release,procPut,setProc,releaseProcs]
@[simp] theorem release_state : (s.release o).state = s.state := by cases o <;> rfl
@[simp] theorem release_clients : (s.release o).clients = s.clients := by cases o <;> rfl
@[simp] theorem setCore_procs (f : CoreState → CoreState) : (s.setCore core f).procs = s.procs := rfl
@[simp] theorem setCore_clients (f : CoreState → CoreState) :
    (s.setCore core f).clients = s.clients := rfl
@[simp] theorem setCore_self (f : CoreState → CoreState) :
    (s.setCore core f).state core = f (s.state core) := by simp [setCore]
theorem setCore_of_ne {c core : ℕ} (h : c ≠ core) (f : CoreState → CoreState) :
    (s.setCore core f).state c = s.state c := by simp [setCore,h]

theorem release_setCore (f : CoreState → CoreState) :
    (s.setCore core f).release o = (s.release o).setCore core f := by cases o <;> rfl
theorem setCore_setCore (f g : CoreState → CoreState) :
    (s.setCore core f).setCore core g = s.setCore core fun k => g (f k) := by simp [setCore]

theorem slot_setCore (f : CoreState → CoreState) : (s.setCore core f).slot =
    update (update s.slot (core,true) (f (s.state core)).pendingTh)
      (core,false) (f (s.state core)).curTh := by
  funext x
  obtain ⟨c,b⟩ := x
  by_cases hc : c = core
  · subst hc
    cases b <;> simp [slot]
  · simp [slot,setCore_of_ne s hc,hc]

theorem slot_setPending (f : CoreState → CoreState) (hp : (f (s.state core)).pendingTh = th)
    (hc : (f (s.state core)).curTh = (s.state core).curTh) :
    (s.setCore core f).slot = update s.slot (core,true) th := by
  rw [slot_setCore,hp,hc,update_comm (by simp)]
  congr 1
  exact update_eq_self (core,false) s.slot

theorem slot_setCur (f : CoreState → CoreState) (hc : (f (s.state core)).curTh = th)
    (hp : (f (s.state core)).pendingTh = (s.state core).pendingTh) :
    (s.setCore core f).slot = update s.slot (core,false) th := by
  rw [slot_setCore,hp,hc]
  congr 1
  exact update_eq_self (core,true) s.slot

theorem slot_setFlags (f : CoreState → CoreState) (hc : (f (s.state core)).curTh = (s.state core).curTh)
    (hp : (f (s.state core)).pendingTh = (s.state core).pendingTh) :
    (s.setCore core f).slot = s.slot := by
  rw [slot_setCur s core _ f hc hp]
  exact update_eq_self (core,false) s.slot

@[simp] theorem slot_release : (s.release o).slot = s.slot := by cases o <;> rfl

end Sched

variable {mc : Machine} {base : ℕ → ℕ} {s : Sched} {core : ℕ} {th : Option ThreadRef}

theorem coreOk_setCore (h : ∀ c, CoreOk (s.state c)) {f : CoreState → CoreState}
    (hf : CoreOk (f (s.state core))) (c : ℕ) : CoreOk ((s.setCore core f).state c) := by
  by_cases hc : c = core
  · subst hc
    simpa using hf
  · rw [Sched.setCore_of_ne s hc]
    exact h c

/-- What `__sched_run` leaves behind. -/
def Sched.afterRun (s : Sched) (th : Option ThreadRef) (core : ℕ) : Sched :=
  if (s.state core).wait then
    (s.release (s.state core).pendingTh).setCore core fun k =>
      { k with pendingTh := th, pending := true }
  else
    (s.release (s.state core).curTh).setCore core fun k =>
      { k with curTh := th, wait := true, idle := false }

theorem schedRun_always {post : Unit → Sched → Prop} (h : post () (s.afterRun th core)) :
    (schedRun th core).Always post s := by
  by_cases hw : (s.state core).wait = true
  · simpa [schedRun,Sched.afterRun,hw] using h
  · simp only [Sched.afterRun,hw] at h
    simp [schedRun,schedInterrupt,hw,kschedRun]
    tauto

theorem schedInv_afterRun (hl : Linked mc base s.clients s.procs s.slot th.toList)
    (hk : ∀ c, CoreOk (s.state c)) (hhome : ∀ t ∈ th, home s.procs t = core)
    (hc : core ∈ mc.cores) : SchedInv mc base (s.afterRun th core) := by
  unfold Sched.afterRun
  split
  · rename_i hw
    constructor
    · rw [Sched.slot_setPending _ _ th _ rfl rfl]
      simpa using linked_replace hl (x:=(core,true)) hhome hc
    · apply coreOk_setCore (by simpa using hk)
      have hi := (hk core).idle_ok
      constructor
      · intro h
        simp_all
      · exact fun _ => by simpa using hw
      · exact fun _ => rfl
  · constructor
    · rw [Sched.slot_setCur _ _ th _ rfl rfl]
      simpa using linked_replace hl (x:=(core,false)) hhome hc
    · apply coreOk_setCore (by simpa using hk)
      constructor
      · intro h
        simp at h
      · exact fun _ => rfl
      · simpa using (hk core).pendingTh_ok

/-- `proc_get` and `sched_enable_kthread`. -/
def Sched.enable (s : Sched) (p i core : ℕ) : Sched :=
  (s.procGet p).setProc p fun pr => pr.schedEnableKthread i core

@[simp] theorem enable_procs (s : Sched) (p i core : ℕ) : (s.enable p i core).procs =
    update s.procs p
      (({ s.procs p with ref := (s.procs p).ref + 1 } : Proc).schedEnableKthread i core) := by
  simp [Sched.enable,Sched.procGet,Sched.setProc]

theorem mem_cores {mc : Machine} {core : ℕ} :
    core ∈ mc.cores ↔ core < mc.ncpu ∧ mc.allowed core = true := Bitmap.mem_setBits

theorem schedPickKthread_mem {pr : Proc} {i : ℕ}
    (h : Proc.schedPickKthread mc pr core = some i) : i ∈ pr.idleThreads := by
  rcases Option.or_eq_some_iff.mp h with h | ⟨-,h⟩
  · rcases Option.or_eq_some_iff.mp h with h | ⟨-,h⟩
    · exact mem_of_find?_eq_some h
    · exact mem_of_find?_eq_some h
  · exact mem_of_getLast? h

theorem schedPickKthread_isSome (mc : Machine) (core : ℕ) {pr : Proc} (h : pr.idleThreads ≠ []) :
    ∃ i, Proc.schedPickKthread mc pr core = some i := by
  rw [← Option.isSome_iff_exists,Proc.schedPickKthread,Option.isSome_or]
  simp [h]

/-- A request is refused for want of an idle thread or of an allowed core; otherwise it
enables one of the idle threads. -/
theorem schedRunOnCore_always {p : ℕ} {post : Except Errno Unit → Sched → Prop}
    (herr : (s.procs p).idleThreads = [] ∨ core ∉ mc.cores → post (.error .einval) s)
    (hok : ∀ i ∈ (s.procs p).idleThreads, core ∈ mc.cores →
      post (.ok ()) ((s.enable p i core).afterRun (some ⟨p,i⟩) core)) :
    (schedRunOnCore mc p core).Always post s := by
  have hbad : ((s.procs p).idleThreads = [] ∨ core ≥ mc.ncpu ∨ mc.allowed core = false) ↔
      (s.procs p).idleThreads = [] ∨ core ∉ mc.cores := by
    rw [mem_cores,not_and_or,not_lt,Bool.not_eq_true]
  simp only [schedRunOnCore,always_bind,always_read,always_ite,hbad,always_pure]
  refine ⟨herr,fun hgood => ?_⟩
  rw [not_or,not_not] at hgood
  obtain ⟨i,hi⟩ := schedPickKthread_isSome mc core hgood.1
  simp only [hi,always_bind,always_update]
  exact schedRun_always (hok i (schedPickKthread_mem hi) hgood.2)

theorem schedInv_runOnCore (h : SchedInv mc base s) {p i : ℕ} (hp : p ∈ s.clients)
    (hi : i ∈ (s.procs p).idleThreads) (hc : core ∈ mc.cores) :
    SchedInv mc base ((s.enable p i core).afterRun (some ⟨p,i⟩) core) := by
  refine schedInv_afterRun ?_ h.core_ok ?_ hc
  · rw [enable_procs]
    exact linked_enable h.linked hp hi hc
  · intro t ht
    obtain rfl := Option.some.inj ht
    simp [home]

theorem schedInv_idleOnCore (h : SchedInv mc base s) (hc : core ∈ mc.cores) :
    SchedInv mc base (s.afterRun none core) :=
  schedInv_afterRun h.linked h.core_ok (fun _ ht => by simp at ht) hc

/-- A pending thread becomes the current one. -/
def Sched.afterSwitch (s : Sched) (core : ℕ) : Sched :=
  (s.release (s.state core).curTh).setCore core fun k =>
    { k with curTh := (s.state core).pendingTh, pendingTh := none, pending := false }

theorem pollDone_always {post : Unit → Sched → Prop} (hsame : post () s)
    (hswitch : (s.state core).wait = true → (s.state core).pending = true →
      post () (s.afterSwitch core))
    (hdone : (s.state core).wait = true → (s.state core).pending = false →
      post () (s.setCore core fun k => { k with wait := false })) :
    (pollDone core).Always post s := by
  have hcomm : ((s.setCore core fun k => { k with pendingTh := none, pending := false }).release
      (s.state core).curTh).setCore core (fun k => { k with curTh := (s.state core).pendingTh }) =
      s.afterSwitch core := by
    rw [Sched.release_setCore,Sched.setCore_setCore]
    rfl
  simp only [pollDone,kschedPollRunDone,kschedRun,always_bind,always_read,always_ite,always_pure,
    always_perform,always_update,always_tell]
  refine ⟨fun hw _ _ => ⟨fun _ => ⟨fun hp _ => ?_,fun hp => ?_⟩,fun _ => hsame⟩,fun _ => hsame⟩
  · rw [Sched.setCore_self,hcomm]
    exact hswitch hw hp
  · exact hdone hw (by simpa using hp)

theorem schedTryFastRewake_always {t : ThreadRef} {post : Bool → Sched → Prop}
    (hwake : post true (s.setCore (s.thread t).core fun k => { k with wait := true }))
    (hsleep : post false s) : (schedTryFastRewake t).Always post s := by
  simp [schedTryFastRewake,ioPending,kschedRun,hwake,hsleep]

theorem pollIdle_always {post : Bool → Sched → Prop} (hsame : post false s)
    (hidle : (s.state core).wait = false → (s.state core).idle = false →
      (s.state core).curTh = none → post true (s.setCore core fun k => { k with idle := true }))
    (hwake : ∀ t, (s.state core).wait = false → (s.state core).idle = false →
      (s.state core).curTh = some t →
      post false (s.setCore (s.thread t).core fun k => { k with wait := true }))
    (hyield : ∀ t, (s.state core).wait = false → (s.state core).idle = false →
      (s.state core).curTh = some t →
      post true ((s.release (some t)).setCore core fun k => { k with curTh := none, idle := true })) :
    (pollIdle core).Always post s := by
  simp only [pollIdle,kschedPollIdle,always_bind,always_read,always_ite,always_pure,
    always_perform]
  refine ⟨fun _ => hsame,fun hbusy b => ⟨fun _ => ?_,fun _ => hsame⟩⟩
  rw [not_or,Bool.not_eq_true,Bool.not_eq_true] at hbusy
  obtain ⟨hw,hi⟩ := hbusy
  cases hc : (s.state core).curTh with
  | none => exact hidle hw hi hc
  | some t =>
    simp only [always_bind]
    refine schedTryFastRewake_always ?_ ?_
    · simpa using hwake t hw hi hc
    · simpa using hyield t hw hi hc

theorem schedInv_afterSwitch (h : SchedInv mc base s) (hw : (s.state core).wait = true)
    (hc : core ∈ mc.cores) : SchedInv mc base (s.afterSwitch core) := by
  have hk := h.core_ok core
  constructor
  · have htake := linked_takeOut h.linked (core,true)
    have hrep := linked_replace htake (x:=(core,false)) (fun t ht => (h.linked.slot_ok _ t ht).2.1) hc
    rw [Sched.afterSwitch,Sched.slot_setCore]
    simpa using hrep
  · apply coreOk_setCore (by simpa using h.core_ok)
    constructor
    · intro hi
      have := (hk.idle_ok (by simpa using hi)).2.1
      simp [hw] at this
    · simp
    · simp

theorem schedInv_setFlags (h : SchedInv mc base s) {f : CoreState → CoreState}
    (hcur : (f (s.state core)).curTh = (s.state core).curTh)
    (hpend : (f (s.state core)).pendingTh = (s.state core).pendingTh)
    (hf : CoreOk (f (s.state core))) : SchedInv mc base (s.setCore core f) := by
  constructor
  · rw [Sched.slot_setFlags s core f hcur hpend]
    exact h.linked
  · exact coreOk_setCore h.core_ok hf

theorem schedInv_yield (h : SchedInv mc base s) (hw : (s.state core).wait = false) {t : ThreadRef}
    (ht : (s.state core).curTh = some t) (hc : core ∈ mc.cores) :
    SchedInv mc base ((s.release (some t)).setCore core fun k =>
      { k with curTh := none, idle := true }) := by
  have hk := h.core_ok core
  constructor
  · have hnone : Linked mc base s.clients s.procs s.slot (Option.toList none) := h.linked
    have hrep := linked_replace hnone (x:=(core,false)) (fun _ ht => by simp at ht) hc
    rw [Sched.slot_setCur _ _ none _ rfl rfl]
    simpa [ht] using hrep
  · apply coreOk_setCore (by simpa using h.core_ok)
    have hp := hk.pending_wait
    have hpt := hk.pendingTh_ok
    constructor
    · intro _
      simp_all
    · simpa using hp
    · simpa using hpt

theorem pollDone_inv (h : SchedInv mc base s) (hc : core ∈ mc.cores) :
    (pollDone core).Always (fun _ s' => SchedInv mc base s' ∧ s'.clients = s.clients) s := by
  apply pollDone_always
  · exact ⟨h,rfl⟩
  · intro hw _
    exact ⟨schedInv_afterSwitch h hw hc,by simp [Sched.afterSwitch]⟩
  · intro hw hp
    have hk := h.core_ok core
    refine ⟨schedInv_setFlags h rfl rfl ?_,rfl⟩
    constructor
    · intro hi
      exact ⟨(hk.idle_ok hi).1,rfl,hp⟩
    · simp [hp]
    · exact hk.pendingTh_ok

theorem pollIdle_inv (h : SchedInv mc base s) (hc : core ∈ mc.cores) :
    (pollIdle core).Always (fun _ s' => SchedInv mc base s' ∧ s'.clients = s.clients) s := by
  have hk := h.core_ok core
  apply pollIdle_always
  · exact ⟨h,rfl⟩
  · intro hw hi ht
    refine ⟨schedInv_setFlags h rfl rfl ?_,rfl⟩
    have hp := hk.pending_wait
    constructor
    · intro _
      simp_all
    · exact hp
    · exact hk.pendingTh_ok
  · intro t hw hi ht
    have hhome : (s.thread t).core = core := (h.linked.slot_ok (core,false) t ht).2.1
    rw [hhome]
    refine ⟨schedInv_setFlags h rfl rfl ?_,rfl⟩
    constructor
    · simp [hi]
    · exact fun _ => rfl
    · exact hk.pendingTh_ok
  · intro t hw hi ht
    exact ⟨schedInv_yield h hw ht hc,by simp⟩

theorem schedFastPass_inv (h : SchedInv mc base s) :
    (schedFastPass mc).Always (fun _ s' => SchedInv mc base s' ∧ s'.clients = s.clients) s := by
  have hloop := always_fold (s:=s) (f:=fun (idle : Bitmap) core => do
      pollDone core
      let b ← pollIdle core
      return if b then idle.set core else idle)
    (fun rest _ s' => rest ⊆ mc.cores ∧ SchedInv mc base s' ∧ s'.clients = s.clients) ?_ .empty
    mc.cores ⟨List.Subset.refl _,h,rfl⟩
  · exact hloop.mono fun _ _ hs => hs.2
  · rintro idle core rest s' ⟨hsub,hs,hcl⟩
    have hc : core ∈ mc.cores := hsub mem_cons_self
    simp only [always_bind,always_pure]
    refine (pollDone_inv hs hc).mono fun _ s₁ h₁ => (pollIdle_inv h₁.1 hc).mono fun _ s₂ h₂ => ?_
    exact ⟨fun c hr => hsub (mem_cons_of_mem _ hr),h₂.1,h₂.2.trans (h₁.2.trans hcl)⟩

@[simp] theorem afterRun_clients (s : Sched) (th : Option ThreadRef) (core : ℕ) :
    (s.afterRun th core).clients = s.clients := by
  unfold Sched.afterRun
  split <;> simp

theorem policyCall_inv (h : SchedInv mc base s) {c : PolicyCall} (hc : c.allowed s) :
    (policyCall mc c).Always (fun _ s' => SchedInv mc base s' ∧ s'.clients = s.clients) s := by
  cases c with
  | run p core =>
    simp only [policyCall,always_bind,always_pure]
    apply schedRunOnCore_always
    · exact fun _ => ⟨h,rfl⟩
    · intro i hi hcore
      exact ⟨schedInv_runOnCore h hc hi hcore,by simp; rfl⟩
  | idle core =>
    simp only [policyCall,schedIdleOnCore,always_bind,always_ite,always_pure]
    refine ⟨fun _ => ⟨h,trivial⟩,fun hgood => schedRun_always ?_⟩
    rw [not_or,not_le,Bool.not_eq_false,← mem_cores] at hgood
    exact ⟨schedInv_idleOnCore h hgood,by simp⟩

theorem PolicyCall.allowed_congr {s s' : Sched} (h : s'.clients = s.clients) (c : PolicyCall) :
    c.allowed s' ↔ c.allowed s := by
  cases c with
  | run p core => simp only [PolicyCall.allowed,h]
  | idle core => exact Iff.rfl

theorem policyCalls_inv (h : SchedInv mc base s) {cs : List PolicyCall}
    (hcs : ∀ c ∈ cs, c.allowed s) :
    (fold (fun _ c => policyCall mc c) () cs).Always
      (fun _ s' => SchedInv mc base s' ∧ s'.clients = s.clients) s := by
  have hloop := always_fold (s:=s) (f:=fun (_ : Unit) c => policyCall mc c)
    (fun rest _ s' => rest ⊆ cs ∧ SchedInv mc base s' ∧ s'.clients = s.clients) ?_ ()
    cs ⟨List.Subset.refl _,h,rfl⟩
  · exact hloop.mono fun _ _ hs => hs.2
  · rintro _ c rest s' ⟨hsub,hs,hcl⟩
    have hc := (c.allowed_congr hcl).mpr (hcs c (hsub mem_cons_self))
    refine (policyCall_inv hs hc).mono fun _ s₁ h₁ => ?_
    exact ⟨fun c hr => hsub (mem_cons_of_mem _ hr),h₁.1,h₁.2.trans hcl⟩

theorem schedPoll_inv (h : SchedInv mc base s) {before after : List PolicyCall}
    (hcs : ∀ c ∈ before ++ after, c.allowed s) :
    (schedPoll mc before after).Always (fun _ s' => SchedInv mc base s') s := by
  simp only [schedPoll,always_bind,always_tell]
  refine (policyCalls_inv h ?_).mono fun _ s₁ h₁ => ?_
  · exact fun c hc => hcs c (mem_append_left _ hc)
  refine (schedFastPass_inv h₁.1).mono fun _ s₂ h₂ => ?_
  refine (policyCalls_inv h₂.1 fun c hc => ?_).mono fun _ s₃ h₃ => h₃.1
  rw [c.allowed_congr (h₂.2.trans h₁.2)]
  exact hcs c (mem_append_right _ hc)

theorem schedAttachProc_inv (h : SchedInv mc base s) {p : ℕ} (hp : p ∉ s.clients) (ok : Bool) :
    SchedInv mc base (s.schedAttachProc p ok) := by
  have hother : Linked mc base s.clients (update s.procs p (s.procs p).attach) s.slot [] :=
    linked_other h.linked hp rfl
  cases ok with
  | false => exact ⟨hother,h.core_ok⟩
  | true =>
    exact ⟨linked_client hother hp (s.procs p) (by rw [update_self]),h.core_ok⟩

theorem schedBody_inv (h : SchedInv mc base s) {c : SchedCall} (hc : c.allowed s) :
    (schedBody mc c).Always (fun _ s' => SchedInv mc base s') s := by
  cases c with
  | attach p ok => exact schedAttachProc_inv h hc ok
  | run p core => exact (policyCall_inv (c:=.run p core) h hc).mono fun _ _ hs => hs.1
  | idle core => exact (policyCall_inv (c:=.idle core) h hc).mono fun _ _ hs => hs.1
  | poll before after => exact schedPoll_inv h hc

/-! ### Every run -/

/-- Any sequence of calls, with any answers from the cores. -/
def SchedRun (mc : Machine) : Sched → Sched → Prop :=
  Relation.ReflTransGen fun s s' =>
    ∃ c : SchedCall, c.allowed s ∧ ∃ v, (schedBody mc c).Returns s v s'

theorem schedInv_initial {s : Sched} (hcores : ∀ c, s.state c = ⟨none,none,false,false,false⟩)
    (hclients : s.clients = []) : SchedInv mc (fun p => (s.procs p).ref) s := by
  have hslot : ∀ x, s.slot x = none := fun x => by simp [Sched.slot,hcores]
  constructor
  · constructor <;> simp [hclients,hslot,Live]
  · intro c
    rw [hcores]
    constructor <;> simp

theorem schedRun_inv {s₀ : Sched} (h : SchedInv mc base s₀) (hrun : SchedRun mc s₀ s) :
    SchedInv mc base s := by
  induction hrun with
  | refl => exact h
  | tail _ hstep ih =>
    obtain ⟨c,hc,v,hv⟩ := hstep
    exact (schedBody_inv ih hc).returns hv

/-- Threads, slots, references and idle flags of the scheduler layer after any run. -/
theorem coreSlots_invariant (mc : Machine) {s₀ s : Sched}
    (hcores : ∀ c, s₀.state c = ⟨none,none,false,false,false⟩) (hclients : s₀.clients = [])
    (hrun : SchedRun mc s₀ s) :
    (∀ p ∈ s.clients,
      ((s.procs p).idleThreads ++
        (List.range (s.procs p).activeThreadCount).map (s.procs p).activeThreads).Perm
          (List.range (s.procs p).threadCount) ∧
      (∀ j < (s.procs p).activeThreadCount,
        ((s.procs p).threads ((s.procs p).activeThreads j)).active = true ∧
        ((s.procs p).threads ((s.procs p).activeThreads j)).atIdx = j) ∧
      (∀ i ∈ (s.procs p).idleThreads, ((s.procs p).threads i).active = false) ∧
      (∀ i < (s.procs p).threadCount, ((s.procs p).threads i).active = true →
        (∃! x, s.slot x = some ⟨p,i⟩) ∧
        ∀ x, s.slot x = some ⟨p,i⟩ → x.1 = ((s.procs p).threads i).core) ∧
      (s.procs p).ref = (s₀.procs p).ref + (s.procs p).activeThreadCount) ∧
    (∀ x t, s.slot x = some t → t.proc ∈ s.clients ∧ (s.thread t).active = true) ∧
    ∀ c, (s.state c).idle = true →
      (s.state c).curTh = none ∧ (s.state c).wait = false ∧ (s.state c).pending = false := by
  have h₀ : SchedInv mc _ s₀ := schedInv_initial hcores hclients
  have h := schedRun_inv h₀ hrun
  refine ⟨fun p hp => ?_,fun x t hx => ?_,fun c => (h.core_ok c).idle_ok⟩
  · have hok := h.linked.proc_ok p hp
    refine ⟨procOk_partition hok,fun j hj => (hok.at_idx j hj).2,
      fun i hi => ((hok.mem_idle i).mp hi).2,fun i hi ha => ?_,h.linked.ref_eq p hp⟩
    rcases h.linked.covered ⟨p,i⟩ ⟨hp,hi,ha⟩ with hf | ⟨x,hx⟩
    · simp at hf
    · exact ⟨⟨x,hx,fun y hy => h.linked.slot_inj y x _ hy hx⟩,
        fun y hy => (h.linked.slot_ok y _ hy).2.1.symm⟩
  · have hl := (h.linked.slot_ok x t hx).1
    exact ⟨hl.1,hl.2.2⟩

def oneCore : Machine := ⟨1,fun _ => true,id,by decide,fun _ h => h⟩

/-- Nothing has run yet, and the processes have two threads each. -/
def Sched.fresh : Sched where
  state _ := ⟨none,none,false,false,false⟩
  procs _ := ⟨1,false,2,0,fun _ => ⟨false,7,0,0⟩,id,[],id⟩
  clients := []

/-- One process with two threads on one core: it attaches and a thread runs. -/
theorem coreSlots_invariant_one_core :
    ∃ (mc : Machine) (s₀ s : Sched), SchedRun mc s₀ s ∧ s.clients = [0] ∧
      (s.procs 0).activeThreadCount = 1 ∧ (s.procs 0).ref = (s₀.procs 0).ref + 1 := by
  let s₁ := Sched.fresh.schedAttachProc 0 true
  let s₂ := (s₁.enable 0 1 0).afterRun (some ⟨0,1⟩) 0
  have hattach : (schedBody oneCore (.attach 0 true)).Returns Sched.fresh () s₁ := ⟨rfl,rfl⟩
  have hstart : (schedBody oneCore (.run 0 0)).Returns s₁ () s₂ :=
    ⟨0,(),(),rfl,rfl⟩
  have hrun : SchedRun oneCore Sched.fresh s₂ :=
    .tail (.tail .refl ⟨_,by decide,_,hattach⟩)
      ⟨_,by decide,_,hstart⟩
  have hinv := (coreSlots_invariant oneCore (fun _ => rfl) rfl hrun).1 0 (by decide)
  exact ⟨oneCore,.fresh,s₂,hrun,rfl,rfl,hinv.2.2.2.2⟩

end Vessel
