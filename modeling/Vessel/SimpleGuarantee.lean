import Vessel.SimpleAgreement
import Mathlib.Algebra.Order.BigOperators.Group.List
import Mathlib.Data.Finset.Card

/-! Guarantees and limits under the simple policy.
A process takes a core from another one only while it is below its own guarantee and the
other is above; the total deficit of all clients falls with every such step.  The limit
of a process is checked when a core is added on request, but not when a poll hands out
a core that has gone idle. -/
namespace Vessel

open Prog Option

/-! ### The choice of a core -/

/-- Process `p` may be given the core: it does not run there, and the core is free or its
process is above its guarantee while `p` is below its own. -/
def MayTake (mc : Machine) (s : Simple) (p core : ℕ) : Prop :=
  core ∈ mc.cores ∧ s.cores core ≠ some p ∧
    (s.cores core = none ∨ ∃ q, s.cores core = some q ∧
      (s.data q).threadsGuaranteed < (s.data q).threadsActive ∧
      (s.data p).threadsActive < (s.data p).threadsGuaranteed)

section Choice

variable {mc : Machine} {base : ℕ → ℕ} {w : World} {s : Simple} {p core : ℕ}

theorem mayTake_of_takeable (hc : core ∈ mc.cores) (h : s.takeable p core = true) :
    MayTake mc s p core := by
  simp only [Simple.takeable,Bool.and_eq_true,bne_iff_ne] at h
  refine ⟨hc,h.1,?_⟩
  cases hq : s.cores core with
  | none => exact Or.inl rfl
  | some q =>
    have hpre : simpleProcIsPreemptible (s.data q) (s.data p) = true := by simpa [hq] using h.2
    simp only [simpleProcIsPreemptible,Bool.and_eq_true,decide_eq_true_eq] at hpre
    exact Or.inr ⟨q,rfl,hpre.1,hpre.2⟩

theorem siblingCore_mayTake {cs : List ℕ} (hcs : ∀ c ∈ cs, c ∈ mc.cores)
    (h : siblingCore mc s p cs = some core) : MayTake mc s p core := by
  induction cs with
  | nil => simp [siblingCore] at h
  | cons c cs ih =>
    rw [siblingCore] at h
    split at h
    · rename_i hc
      obtain rfl := some.inj h
      have hlt := mc.siblings_lt c (mem_cores.mp (hcs c List.mem_cons_self)).1
      exact mayTake_of_takeable (mem_cores.mpr ⟨hlt,hc.2.2⟩) hc.2.1
    · exact ih (fun d hd => hcs d (List.mem_cons_of_mem _ hd)) h

/-- An idle thread that ran before did so on an allowed core. -/
theorem previousCore_mayTake {pr : Proc} {is : List ℕ}
    (his : ∀ i ∈ is, (pr.threads i).core = uintMax ∨ (pr.threads i).core ∈ mc.cores)
    (h : previousCore mc s p pr is = some core) : MayTake mc s p core := by
  induction is with
  | nil => simp [previousCore] at h
  | cons i is ih =>
    have hhome := his i List.mem_cons_self
    have hle := mc.ncpu_le
    rw [previousCore] at h
    by_cases hran : (pr.threads i).core ≥ mc.ncpu
    · simp [hran] at h
    · have hc : (pr.threads i).core ∈ mc.cores := hhome.resolve_left (by omega)
      have hsib := mc.siblings_lt _ (mem_cores.mp hc).1
      simp only [hran,if_false] at h
      split at h
      · rename_i ht
        obtain rfl := some.inj h
        exact mayTake_of_takeable hc ht
      · split at h
        · rename_i ht
          obtain rfl := some.inj h
          exact mayTake_of_takeable (mem_cores.mpr ⟨hsib,ht.2⟩) ht.1
        · exact ih (fun j hj => his j (List.mem_cons_of_mem _ hj)) h

theorem preemptibleCore_mayTake {cs : List ℕ} (hcs : ∀ c ∈ cs, c ∈ mc.cores)
    (h : preemptibleCore s p cs = some core) : MayTake mc s p core := by
  induction cs with
  | nil => simp [preemptibleCore] at h
  | cons c cs ih =>
    rw [preemptibleCore] at h
    split at h
    · rename_i hc
      obtain rfl := some.inj h
      refine mayTake_of_takeable (hcs c List.mem_cons_self) ?_
      cases hq : s.cores c with
      | none => simp [hq] at hc
      | some q => simpa [Simple.takeable,hq] using hc
    · exact ih (fun d hd => hcs d (List.mem_cons_of_mem _ hd)) h

theorem simpleChooseCore_spec (h : PolicyInv mc base [] w) (hp : p ∈ w.sched.clients) :
    simpleChooseCore mc w p = mc.ncpu ∨ MayTake mc w.simple p (simpleChooseCore mc w p) := by
  have hhome : ∀ i ∈ (w.sched.procs p).idleThreads,
      ((w.sched.procs p).threads i).core = uintMax ∨ ((w.sched.procs p).threads i).core ∈ mc.cores := by
    intro i hi
    have hlt := (((h.sched.linked.proc_ok p hp).mem_idle i).mp hi).1
    exact h.sched.linked.home_ok p hp i hlt
  unfold simpleChooseCore
  split
  · rename_i c hc
    exact Or.inr (siblingCore_mayTake (fun _ hd => hd) hc)
  · split
    · rename_i c hc
      exact Or.inr (previousCore_mayTake hhome hc)
    · rcases w.simple.idleCores.findNextSet_spec mc.ncpu 0 with hnone | ⟨-,hlt,hset⟩
      · simp only [hnone,ne_eq,not_true_eq_false,if_false]
        cases hpre : preemptibleCore w.simple p mc.cores with
        | none => exact Or.inl rfl
        | some c => exact Or.inr (preemptibleCore_mayTake (fun _ hd => hd) hpre)
      · have hidle := h.simple.idle _ hset
        simp only [ne_eq,Nat.ne_of_lt hlt,not_false_eq_true,if_true]
        exact Or.inr ⟨hidle.2,by simp [hidle.1],Or.inl hidle.1⟩

end Choice

/-! ### Steps that add a core -/

theorem run_threadsGuaranteed (s : Simple) (p core q : ℕ) :
    ((s.runOnCore p core).data q).threadsGuaranteed = (s.data q).threadsGuaranteed := by
  by_cases hq : q = p
  · subst hq
    simp [Simple.runOnCore,cleanup_data]
  · simp [Simple.runOnCore,setData_of_ne _ _ hq,cleanup_data]

/-- How many cores the clients lack in all to have their guarantees. -/
def World.deficit (w : World) : ℕ :=
  (w.sched.clients.map fun p =>
    ((w.simple.data p).threadsGuaranteed - (w.simple.data p).threadsActive).toNat).sum

/-- A `simple_add_kthread` that takes a core from another process. -/
def Preempts (mc : Machine) (w w' : World) : Prop :=
  ∃ p ∈ w.sched.clients, ∃ r, (simpleAddKthread mc p).Returns w r w' ∧
    ∃ core q, q ≠ p ∧ w.simple.cores core = some q ∧ w'.simple.cores core = some p

section Steps

variable {mc : Machine} {base : ℕ → ℕ} {w w' : World} {p : ℕ} {r : Except Errno Unit}

theorem simpleAddKthread_returns (hr : (simpleAddKthread mc p).Returns w r w') :
    w' = w ∨ ∃ i ∈ (w.sched.procs p).idleThreads, simpleChooseCore mc w p ∈ mc.cores ∧
      w' = w.afterRun p i (simpleChooseCore mc w p) := by
  have hstep : (simpleAddKthread mc p).Always (fun _ w' => w' = w ∨
      ∃ i ∈ (w.sched.procs p).idleThreads, simpleChooseCore mc w p ∈ mc.cores ∧
        w' = w.afterRun p i (simpleChooseCore mc w p)) w := by
    apply simpleAddKthread_always
    · exact fun _ => Or.inl rfl
    · exact fun i hi hc _ => Or.inr ⟨i,hi,hc,rfl⟩
  exact hstep.returns hr

theorem mayTake_of_mem (h : PolicyInv mc base [] w) (hp : p ∈ w.sched.clients)
    (hc : simpleChooseCore mc w p ∈ mc.cores) :
    MayTake mc w.simple p (simpleChooseCore mc w p) := by
  have hlt := (mem_cores.mp hc).1
  exact (simpleChooseCore_spec h hp).resolve_left (by omega)

/-- A process that loses a core was above its guarantee. -/
theorem run_keeps_guarantee {core q : ℕ} (ht : MayTake mc w.simple p core)
    (hlost : ((w.simple.runOnCore p core).data q).threadsActive < (w.simple.data q).threadsActive) :
    (w.simple.data q).threadsGuaranteed ≤ ((w.simple.runOnCore p core).data q).threadsActive := by
  rw [run_threadsActive] at hlost ⊢
  by_cases hq : w.simple.cores core = some q
  · rcases ht.2.2 with hfree | ⟨q',hq',habove,-⟩
    · simp [hfree] at hq
    · obtain rfl := some.inj (hq.symm.trans hq')
      simp only [hq,if_true] at hlost ⊢
      split_ifs at hlost ⊢ <;> omega
  · simp only [hq,if_false] at hlost
    split_ifs at hlost <;> omega

theorem preempts_deficit (h : PolicyInv mc base [] w) (hs : Preempts mc w w') :
    PolicyInv mc base [] w' ∧ w'.deficit + 1 ≤ w.deficit := by
  obtain ⟨p,hp,r,hret,core,q,hqp,hq,hq'⟩ := hs
  rcases simpleAddKthread_returns hret with rfl | ⟨i,hi,hc,rfl⟩
  · exact absurd (some.inj (hq.symm.trans hq')) hqp
  · have ht := mayTake_of_mem h hp hc
    refine ⟨policyInv_run h hp hi hc (by simp),?_⟩
    generalize hchoose : simpleChooseCore mc w p = c at hc ht hq'
    -- the core that changed hands is the chosen one
    have hcore : core = c := by
      by_contra hne
      rw [afterRun_simple,run_cores,Function.update_of_ne hne,hq] at hq'
      exact hqp (some.inj hq')
    subst hcore
    rcases ht.2.2 with hfree | ⟨q',hv,habove,hbelow⟩
    · simp [hfree] at hq
    · obtain rfl := some.inj (hq.symm.trans hv)
      have hle : ∀ x ∈ w.sched.clients,
          (((w.simple.runOnCore p core).data x).threadsGuaranteed -
            ((w.simple.runOnCore p core).data x).threadsActive).toNat ≤
          ((w.simple.data x).threadsGuaranteed - (w.simple.data x).threadsActive).toNat := by
        intro x _
        rw [run_threadsGuaranteed,run_threadsActive,hq]
        by_cases hxq : q = x
        · subst hxq
          simp only [if_true]
          split_ifs <;> omega
        · simp only [Option.some.injEq,hxq,if_false]
          split_ifs <;> omega
      have hlt : (((w.simple.runOnCore p core).data p).threadsGuaranteed -
            ((w.simple.runOnCore p core).data p).threadsActive).toNat <
          ((w.simple.data p).threadsGuaranteed - (w.simple.data p).threadsActive).toNat := by
        rw [run_threadsGuaranteed,run_threadsActive,hq]
        simp only [Option.some.injEq,hqp,if_false,if_true]
        omega
      have hsum := List.sum_lt_sum _ _ hle ⟨p,hp,hlt⟩
      rw [World.deficit,World.deficit,afterRun_sched_clients,afterRun_simple]
      exact hsum

theorem preempts_answer (ans : (op : Op) → Res op) (hp : p ∈ w.sched.clients) {core q : ℕ}
    (hqp : q ≠ p) (hq : w.simple.cores core = some q)
    (hq' : ((simpleAddKthread mc p).answer ans w).2.simple.cores core = some p) :
    Preempts mc w ((simpleAddKthread mc p).answer ans w).2 :=
  ⟨p,hp,_,answer_returns ans _ w,core,q,hqp,hq,hq'⟩

theorem preempts_chain (h : PolicyInv mc base [] w) (f : ℕ → World) (h0 : f 0 = w) (n : ℕ)
    (hf : ∀ k < n, Preempts mc (f k) (f (k+1))) :
    PolicyInv mc base [] (f n) ∧ (f n).deficit + n ≤ w.deficit := by
  induction n with
  | zero =>
    rw [h0]
    exact ⟨h,le_rfl⟩
  | succ n ih =>
    obtain ⟨hn,hd⟩ := ih fun k hk => hf k (by omega)
    obtain ⟨hn',hd'⟩ := preempts_deficit hn (hf n (by omega))
    exact ⟨hn',by omega⟩

end Steps

/-- A core that is chosen for a process is allowed, not its own, and free or held by a
process above its guarantee while the chooser is below its own.  So no added core takes
a process below its guarantee, and preempting steps end when the deficit is used up. -/
theorem guarantees_survive (mc : Machine) {w₀ w : World} (h₀ : w₀.initial mc)
    (hrun : SimpleRun mc w₀ w) :
    (∀ p ∈ w.sched.clients,
      simpleChooseCore mc w p = mc.ncpu ∨ MayTake mc w.simple p (simpleChooseCore mc w p)) ∧
    (∀ p ∈ w.sched.clients, ∀ r w', (simpleAddKthread mc p).Returns w r w' →
      ∀ q, (w'.simple.data q).threadsActive < (w.simple.data q).threadsActive →
        (w'.simple.data q).threadsGuaranteed ≤ (w'.simple.data q).threadsActive) ∧
    ∀ (f : ℕ → World) (n : ℕ), f 0 = w → (∀ k < n, Preempts mc (f k) (f (k+1))) →
      n ≤ w.deficit := by
  have h := simpleRun_inv h₀ hrun
  refine ⟨fun p hp => simpleChooseCore_spec h hp,fun p hp r w' hret q hlost => ?_,
    fun f n h0 hf => ?_⟩
  · rcases simpleAddKthread_returns hret with rfl | ⟨i,-,hc,rfl⟩
    · omega
    · rw [afterRun_simple] at hlost ⊢
      rw [run_threadsGuaranteed]
      exact run_keeps_guarantee (mayTake_of_mem h hp hc) hlost
  · have hd := (preempts_chain h f h0 n hf).2
    omega

/-- Process 0 has both cores and no guarantee; process 1, with a guarantee of one core,
takes one of them and could not do so twice. -/
theorem guarantees_survive_pair : ∃ w w', SimpleRun pairMachine pairWorld w ∧
    Preempts pairMachine w w' ∧ (w'.simple.data 0).threadsActive = 1 ∧ w.deficit = 1 ∧
    ∀ (f : ℕ → World) (n : ℕ), f 0 = w → (∀ k < n, Preempts pairMachine (f k) (f (k+1))) →
      n ≤ 1 := by
  let w₁ := pairWorld.replay pairMachine .initial (.attach 0 ⟨2,0,0⟩ true)
  let w₂ := w₁.replay pairMachine .initial (.notifyCoreNeeded 0)
  let w₃ := w₂.replay pairMachine .initial (.notifyCoreNeeded 0)
  let w₄ := w₃.replay pairMachine .initial (.attach 1 ⟨2,1,0⟩ true)
  have hrun₁ : SimpleRun pairMachine pairWorld w₁ := replay_run .refl _ (by decide)
  have hrun₂ : SimpleRun pairMachine pairWorld w₂ := replay_run hrun₁ _ (by decide)
  have hrun₃ : SimpleRun pairMachine pairWorld w₃ := replay_run hrun₂ _ (by decide +kernel)
  have hrun₄ : SimpleRun pairMachine pairWorld w₄ := replay_run hrun₃ _ (by decide +kernel)
  let ans : (op : Op) → Res op := fun op => (exec 0 op .initial).1
  have hp : 1 ∈ w₄.sched.clients := by decide +kernel
  have hbefore : w₄.simple.cores 0 = some 0 := by decide +kernel
  have hafter : ((simpleAddKthread pairMachine 1).answer ans w₄).2.simple.cores 0 = some 1 := by
    decide +kernel
  have hpre := preempts_answer ans hp (by decide) hbefore hafter
  have hdef : w₄.deficit = 1 := by decide +kernel
  have hactive : (((simpleAddKthread pairMachine 1).answer ans w₄).2.simple.data 0).threadsActive = 1 := by
    decide +kernel
  have hsurvive := (guarantees_survive pairMachine pairWorld_initial hrun₄).2.2
  exact ⟨w₄,_,hrun₄,hpre,hactive,hdef,fun f n h0 hf => (hsurvive f n h0 hf).trans_eq hdef⟩

/-! ### Limits -/

section Limits

variable {mc : Machine} {base : ℕ → ℕ} {w : World} {p : ℕ}

theorem reported_thread (h : PolicyInv mc base [] w) {c : ℕ} (hc : w.simple.cores c = some p) :
    ∃ (b : Bool) (i : ℕ), w.sched.slot (c,b) = some ⟨p,i⟩ ∧
      w.sched.schedGetThreadOnCore c = some ⟨p,i⟩ := by
  rw [h.shadow c (by simp),World.reported,map_eq_some_iff] at hc
  obtain ⟨⟨q,i⟩,ht,rfl⟩ := hc
  rw [Sched.schedGetThreadOnCore] at ht ⊢
  split at ht
  · rename_i hp
    exact ⟨true,i,ht,by simpa [hp] using ht⟩
  · rename_i hp
    exact ⟨false,i,ht,by simpa [hp] using ht⟩

theorem coreCount_le_allowed (h : PolicyInv mc base [] w) :
    coreCount w.simple.cores p mc.ncpu ≤ mc.allowed.popcount mc.ncpu := by
  rw [coreCount,Bitmap.popcount,Bitmap.setBits,← List.countP_eq_length_filter]
  apply List.countP_mono_left
  intro c _ hc
  obtain ⟨b,i,hslot,-⟩ := reported_thread h (by simpa using hc)
  exact (mem_cores.mp (h.sched.linked.slot_ok _ _ hslot).2.2).2

theorem coreCount_le_threadCount (h : PolicyInv mc base [] w) :
    coreCount w.simple.cores p mc.ncpu ≤ (w.sched.procs p).threadCount := by
  let held := (Finset.range mc.ncpu).filter fun c => w.simple.cores c = some p
  let idx : ℕ → ℕ := fun c => (w.sched.schedGetThreadOnCore c).elim 0 ThreadRef.idx
  have hcard : coreCount w.simple.cores p mc.ncpu = held.card := by
    rw [coreCount,List.countP_eq_length_filter]
    rfl
  have hmem : ∀ c ∈ held, ∃ (b : Bool) (i : ℕ), w.sched.slot (c,b) = some ⟨p,i⟩ ∧
      w.sched.schedGetThreadOnCore c = some ⟨p,i⟩ := fun c hc =>
    reported_thread h (Finset.mem_filter.mp hc).2
  have hmaps : ∀ c ∈ held, idx c ∈ Finset.range (w.sched.procs p).threadCount := by
    intro c hc
    obtain ⟨b,i,hslot,hget⟩ := hmem c hc
    have hlive := (h.sched.linked.slot_ok _ _ hslot).1
    simpa [idx,hget] using hlive.2.1
  have hinj : Set.InjOn idx held := by
    intro c hc d hd hcd
    obtain ⟨b,i,hslot,hget⟩ := hmem c hc
    obtain ⟨b',i',hslot',hget'⟩ := hmem d hd
    obtain rfl : i = i' := by simpa [idx,hget,hget'] using hcd
    exact congrArg Prod.fst (h.sched.linked.slot_inj _ _ _ hslot hslot')
  have hle := Finset.card_le_card_of_injOn idx hmaps hinj
  rw [hcard]
  simpa using hle

end Limits

/-- A limit that is not below both the thread count and the number of allowed cores is
respected. -/
theorem coreLimit_respected (mc : Machine) {w₀ w : World} (h₀ : w₀.initial mc)
    (hrun : SimpleRun mc w₀ w) {p : ℕ} (hp : p ∈ w.sched.clients)
    (hmax : (min (w.sched.procs p).threadCount (mc.allowed.popcount mc.ncpu) : ℤ) ≤
      (w.simple.data p).threadsMax) :
    (w.simple.data p).threadsActive ≤ (w.simple.data p).threadsMax := by
  have h := simpleRun_inv h₀ hrun
  have hthreads := coreCount_le_threadCount (p:=p) h
  have hallowed := coreCount_le_allowed (p:=p) h
  have hactive := h.simple.active p hp
  omega

/-- A limit of two cores on two cores. -/
theorem coreLimit_respected_pair : ∃ w, SimpleRun pairMachine pairWorld w ∧
    (w.simple.data 0).threadsMax = 2 ∧
    (w.simple.data 0).threadsActive ≤ (w.simple.data 0).threadsMax := by
  let w₁ := pairWorld.replay pairMachine .initial (.attach 0 ⟨2,0,0⟩ true)
  let w₂ := w₁.replay pairMachine .initial (.notifyCoreNeeded 0)
  have hrun₁ : SimpleRun pairMachine pairWorld w₁ := replay_run .refl _ (by decide)
  have hrun₂ : SimpleRun pairMachine pairWorld w₂ := replay_run hrun₁ _ (by decide)
  have hmax : (w₂.simple.data 0).threadsMax = 2 := by decide +kernel
  refine ⟨w₂,hrun₂,hmax,coreLimit_respected pairMachine pairWorld_initial hrun₂ ?_ ?_⟩
  · decide +kernel
  · decide +kernel

/-- Process 0 asks for at most one core and is accepted.  It gets core 0 on request, is
congested at two notifications, and at the next poll it is given core 1 as well. -/
theorem coreLimit_exceeded : ∃ (hdr : ControlHdr) (w : World),
    controlCreateProc pairMachine 0 hdr true = true ∧
    (pairWorld.sched.procs 0).threadCount = hdr.threadCount.toNat ∧
    SimpleRun pairMachine (pairWorld.attach 0 hdr.schedCfg true) w ∧
    0 ∈ w.sched.clients ∧ (w.simple.data 0).threadsMax = 1 ∧ (w.simple.data 0).threadsActive = 2 := by
  let busy : Delay := ⟨true,0,false⟩
  let m : Mem := { Mem.initial with conn := fun c => ⟨0,0,0,c == 1,false⟩ }
  let w₁ := pairWorld.attach 0 ⟨1,0,0⟩ true
  let w₂ := w₁.replay pairMachine m (.notifyCoreNeeded 0)
  let w₃ := w₂.replay pairMachine m (.notifyCongested 0 busy)
  let w₄ := w₃.replay pairMachine m (.notifyCongested 0 busy)
  let w₅ := w₄.replay pairMachine m (.poll false)
  have hrun₂ : SimpleRun pairMachine w₁ w₂ := replay_run .refl _ (by decide)
  have hrun₃ : SimpleRun pairMachine w₁ w₃ := replay_run hrun₂ _ (by decide +kernel)
  have hrun₄ : SimpleRun pairMachine w₁ w₄ := replay_run hrun₃ _ (by decide +kernel)
  have hrun₅ : SimpleRun pairMachine w₁ w₅ := replay_run hrun₄ _ (by decide +kernel)
  refine ⟨⟨2,1,0,0⟩,w₅,?_,rfl,hrun₅,?_,?_,?_⟩
  · decide +kernel
  · decide +kernel
  · decide +kernel
  · decide +kernel

end Vessel
