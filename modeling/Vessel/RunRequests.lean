import Vessel.Handshake

/-! The iokernel and the cores follow the rules of the handshake, in every run.
From this follow that requests are neither lost nor repeated, and when the idle flag
of a core can be trusted. -/
namespace Vessel

open Prog Counter Function

/-! ### The iokernel -/

/-- The wait flag says that a request is out, and an idle core is known to be idle. -/
def Agree (s : Sched) (v : ℕ → IokCore) : Prop := ∀ c,
  (v c).phase = (if (s.state c).wait then .out else .quiet) ∧
    ((s.state c).idle = true → (v c).known = true)

section Iokernel

variable {mc : Machine} {base : ℕ → ℕ} {s : Sched} {v : ℕ → IokCore} {core : ℕ}
  {th : Option ThreadRef}

theorem Agree.quiet (h : Agree s v) (hw : (s.state core).wait = false) :
    (v core).phase = .quiet := by simpa [hw] using (h core).1

theorem Agree.out (h : Agree s v) (hw : (s.state core).wait = true) :
    (v core).phase = .out := by simpa [hw] using (h core).1

theorem agree_setCore (h : Agree s v) {f : CoreState → CoreState} {vc : IokCore}
    (hp : vc.phase = if (f (s.state core)).wait then .out else .quiet)
    (hi : (f (s.state core)).idle = true → vc.known = true) :
    Agree (s.setCore core f) (update v core vc) := by
  intro c
  by_cases hc : c = core
  · subst hc
    simpa using ⟨hp,hi⟩
  · rw [Sched.setCore_of_ne s hc,update_of_ne hc]
    exact h c

theorem agree_slots (h : Agree s v) {f : CoreState → CoreState}
    (hw : (f (s.state core)).wait = (s.state core).wait)
    (hi : (f (s.state core)).idle = (s.state core).idle) : Agree (s.setCore core f) v := by
  have hs : Agree (s.setCore core f) (update v core (v core)) :=
    agree_setCore h (by rw [hw]; exact (h core).1) (by rw [hi]; exact (h core).2)
  rwa [update_eq_self] at hs

theorem agree_release (h : Agree s v) (o : Option ThreadRef) : Agree (s.release o) v := by
  intro c
  rw [Sched.release_state]
  exact h c

theorem kschedRun_obeys {post : Unit → Sched → (ℕ → IokCore) → Prop} (tid : ℤ)
    (hq : (v core).phase = .quiet)
    (hpost : post () s (update v core ⟨(v core).n+1,.out,false⟩)) :
    (kschedRun core tid : Prog Sched Op Res Unit).Obeys iokRules post s v := by
  simp only [kschedRun,obeys_bind,obeys_perform,obeys_tell]
  refine ⟨hq,?_⟩
  rintro _ _ ⟨rfl,rfl⟩
  have hbumped : (update v core ⟨(v core).n,.bumped,false⟩ core).phase = .bumped := by simp
  refine ⟨hbumped,?_⟩
  rintro _ _ rfl
  refine ⟨⟨⟨tid,by simp⟩,by simp⟩,?_⟩
  rintro _ _ rfl
  simpa using hpost

theorem schedInterrupt_obeys {post : Unit → Sched → (ℕ → IokCore) → Prop} (h : Agree s v)
    (hpost : post () s v) : (schedInterrupt core).Obeys iokRules post s v := by
  simp only [schedInterrupt,obeys_bind,obeys_read,obeys_ite,obeys_tell,obeys_pure]
  refine ⟨fun _ => ⟨trivial,?_⟩,fun _ => ⟨fun hi => ⟨(h core).2 hi,?_⟩,fun _ => hpost⟩⟩
  · rintro _ _ rfl
    exact hpost
  · rintro _ _ rfl
    exact hpost

theorem schedRun_obeys (h : Agree s v) :
    (schedRun th core).Obeys iokRules (fun _ s v => Agree s v) s v := by
  simp only [schedRun,obeys_bind,obeys_read,obeys_ite,obeys_update]
  constructor
  · intro _
    exact agree_slots (agree_release h _) rfl rfl
  · intro hw
    rw [Bool.not_eq_true] at hw
    refine schedInterrupt_obeys h (kschedRun_obeys _ (h.quiet hw) ?_)
    exact agree_setCore (agree_release h _) rfl (by simp)

theorem policyCall_obeys (h : Agree s v) (c : PolicyCall) :
    (policyCall mc c).Obeys iokRules (fun _ s v => Agree s v) s v := by
  cases c with
  | run p core =>
    simp only [policyCall,schedRunOnCore,obeys_bind,obeys_read,obeys_ite,obeys_pure]
    refine ⟨fun _ => h,fun _ => ?_⟩
    cases Proc.schedPickKthread mc (s.procs p) core with
    | none => exact h
    | some i =>
      simp only [obeys_bind,obeys_update,obeys_pure]
      exact schedRun_obeys h
  | idle core =>
    simp only [policyCall,schedIdleOnCore,obeys_bind,obeys_ite,obeys_pure]
    exact ⟨fun _ => h,fun _ => schedRun_obeys h⟩

theorem pollDone_obeys (h : Agree s v) (hk : CoreOk (s.state core)) :
    (pollDone core).Obeys iokRules (fun _ s v => Agree s v) s v := by
  simp only [pollDone,kschedPollRunDone,obeys_bind,obeys_read,obeys_ite,obeys_pure,obeys_perform,
    obeys_update,obeys_tell]
  refine ⟨fun hw => ⟨trivial,?_⟩,fun _ => h⟩
  have hidle : (s.state core).idle = false := by
    cases hi : (s.state core).idle with
    | false => rfl
    | true => simpa [hw] using (hk.idle_ok hi).2.1
  have hout := h.out hw
  intro last v₁ hlast
  rw [iokRules_acknowledged hout] at hlast
  refine ⟨trivial,?_⟩
  rintro gen v₂ ⟨rfl,rfl⟩
  rcases hlast with ⟨rfl,rfl⟩ | ⟨hne,rfl⟩
  · -- the core has acknowledged
    refine ⟨fun _ => ⟨fun hp => ⟨trivial,?_⟩,fun hp => ?_⟩,fun hne => by simp [Phase.bump] at hne⟩
    · rintro _ _ rfl
      refine kschedRun_obeys _ (by simp) ?_
      rw [update_idem]
      refine agree_setCore (agree_release (agree_slots h rfl rfl) _) ?_ ?_
      · simp [hw]
      · simp [hidle]
    · exact agree_setCore h rfl (by simp [hidle])
  · refine ⟨fun he => ?_,fun _ => h⟩
    simp [hout,Phase.bump,hne] at he

theorem ioPending_obeys {t : ThreadRef} {post : Bool → Sched → (ℕ → IokCore) → Prop}
    (hpost : ∀ b, post b s v) : (ioPending t).Obeys iokRules post s v := by
  simp only [ioPending,obeys_bind,obeys_perform,obeys_ite,obeys_pure]
  refine ⟨trivial,?_⟩
  rintro _ _ rfl
  refine ⟨fun _ => hpost true,fun _ => ⟨trivial,?_⟩⟩
  rintro _ _ rfl
  refine ⟨fun _ => hpost true,fun _ => ⟨trivial,?_⟩⟩
  rintro b _ rfl
  exact hpost b

theorem pollIdle_obeys (h : Agree s v) (hi : SchedInv mc base s) :
    (pollIdle core).Obeys iokRules (fun _ s v => Agree s v) s v := by
  simp only [pollIdle,kschedPollIdle,obeys_bind,obeys_read,obeys_ite,obeys_pure,obeys_perform]
  refine ⟨fun _ => h,fun hbusy => ⟨trivial,?_⟩⟩
  rw [not_or,Bool.not_eq_true,Bool.not_eq_true] at hbusy
  obtain ⟨hw,hidle⟩ := hbusy
  have hq := h.quiet hw
  intro idling v₁ hv₁
  refine ⟨fun ht => ?_,fun hf => ?_⟩
  · rw [iokRules_foundIdle ⟨hq,ht⟩,hq] at hv₁
    subst hv₁
    have hknown : ∀ {s' : Sched} {f : CoreState → CoreState}, Agree s' v →
        (f (s'.state core)).wait = false →
        Agree (s'.setCore core f) (update v core ⟨(v core).n,.quiet,true⟩) :=
      fun hs' hf => agree_setCore hs' (by simp [hf]) fun _ => rfl
    cases hc : (s.state core).curTh with
    | none => exact hknown (f:=fun k => { k with idle := true }) h hw
    | some t =>
      have hhome : (s.thread t).core = core := (hi.linked.slot_ok (core,false) t hc).2.1
      simp only [schedTryFastRewake,obeys_bind]
      refine ioPending_obeys fun b => ?_
      cases b with
      | true =>
        simp only [if_true,obeys_bind,obeys_read,hhome]
        refine kschedRun_obeys _ (by simp) ?_
        simp only [obeys_update,obeys_pure,if_true,update_idem,hhome]
        exact agree_setCore h rfl (by simp [hidle])
      | false =>
        exact hknown (f:=fun k => { k with curTh := none, idle := true }) (agree_release h (some t))
          (by simpa using hw)
  · rw [iokRules_notIdle fun hp => hf hp.2] at hv₁
    subst hv₁
    exact h

/-- Both halves of what the iokernel maintains. -/
def IokRest (mc : Machine) (base : ℕ → ℕ) (s : Sched) (v : ℕ → IokCore) : Prop :=
  SchedInv mc base s ∧ Agree s v

theorem schedFastPass_obeys (h : IokRest mc base s v) :
    (schedFastPass mc).Obeys iokRules
      (fun _ s' v' => IokRest mc base s' v' ∧ s'.clients = s.clients) s v := by
  have hloop := obeys_fold (R:=iokRules) (s:=s) (g:=v) (f:=fun (idle : Bitmap) core => do
      pollDone core
      let b ← pollIdle core
      return if b then idle.set core else idle)
    (fun rest _ s' v' => rest ⊆ mc.cores ∧ IokRest mc base s' v' ∧ s'.clients = s.clients) ?_ .empty
    mc.cores ⟨List.Subset.refl _,h,rfl⟩
  · exact hloop.mono fun _ _ _ hs => hs.2
  · rintro idle core rest s' v' ⟨hsub,⟨hi,ha⟩,hcl⟩
    have hc : core ∈ mc.cores := hsub List.mem_cons_self
    simp only [obeys_bind,obeys_pure]
    refine ((pollDone_obeys ha (hi.core_ok core)).and_always (pollDone_inv hi hc)).mono ?_
    rintro _ s₁ v₁ ⟨⟨hi₁,hcl₁⟩,ha₁⟩
    refine ((pollIdle_obeys ha₁ hi₁).and_always (pollIdle_inv hi₁ hc)).mono ?_
    rintro _ s₂ v₂ ⟨⟨hi₂,hcl₂⟩,ha₂⟩
    exact ⟨fun c hr => hsub (List.mem_cons_of_mem _ hr),⟨hi₂,ha₂⟩,hcl₂.trans (hcl₁.trans hcl)⟩

theorem policyCalls_obeys (h : IokRest mc base s v) {cs : List PolicyCall}
    (hcs : ∀ c ∈ cs, c.allowed s) :
    (fold (fun _ c => policyCall mc c) () cs).Obeys iokRules
      (fun _ s' v' => IokRest mc base s' v' ∧ s'.clients = s.clients) s v := by
  have hloop := obeys_fold (R:=iokRules) (s:=s) (g:=v) (f:=fun (_ : Unit) c => policyCall mc c)
    (fun rest _ s' v' => rest ⊆ cs ∧ IokRest mc base s' v' ∧ s'.clients = s.clients) ?_ ()
    cs ⟨List.Subset.refl _,h,rfl⟩
  · exact hloop.mono fun _ _ _ hs => hs.2
  · rintro _ c rest s' v' ⟨hsub,⟨hi,ha⟩,hcl⟩
    have hc := (c.allowed_congr hcl).mpr (hcs c (hsub List.mem_cons_self))
    refine ((policyCall_obeys ha c).and_always (policyCall_inv hi hc)).mono ?_
    · rintro _ s₁ v₁ ⟨⟨hi₁,hcl₁⟩,ha₁⟩
      exact ⟨fun c hr => hsub (List.mem_cons_of_mem _ hr),⟨hi₁,ha₁⟩,hcl₁.trans hcl⟩

theorem schedBody_obeys (h : IokRest mc base s v) {c : SchedCall} (hc : c.allowed s) :
    (schedBody mc c).Obeys iokRules (fun _ s v => IokRest mc base s v) s v := by
  refine (Obeys.and_always ?_ (schedBody_inv h.1 hc)).mono fun _ _ _ hs => hs
  cases c with
  | attach p ok =>
    intro c
    have hs : (s.schedAttachProc p ok).state = s.state := by cases ok <;> rfl
    rw [hs]
    exact h.2 c
  | run p core => exact policyCall_obeys h.2 (.run p core)
  | idle core => exact policyCall_obeys h.2 (.idle core)
  | poll before after =>
    simp only [schedBody,schedPoll,obeys_bind,obeys_tell]
    refine (policyCalls_obeys h ?_).mono ?_
    · exact fun c hp => hc c (List.mem_append_left _ hp)
    rintro _ s₁ v₁ ⟨h₁,hcl₁⟩
    refine (schedFastPass_obeys h₁).mono ?_
    rintro _ s₂ v₂ ⟨h₂,hcl₂⟩
    refine (policyCalls_obeys h₂ ?_).mono ?_
    · intro c hp
      rw [c.allowed_congr (hcl₂.trans hcl₁)]
      exact hc c (List.mem_append_right _ hp)
    rintro _ s₃ v₃ ⟨h₃,-⟩
    refine ⟨trivial,?_⟩
    rintro _ _ rfl
    exact h₃.2

end Iokernel

/-! ### The cores -/

section Cores

variable {i : ℕ} {l : CoreLocal} {w : CoreView} {next : Option ℕ}

/-- `csched` finds in `cur_cluster` what the core stored there. -/
theorem csched_obeys (hu : w.user = false) (ht : w.took = none)
    (hc : w.cur.isSome → w.ok = true → w.idling = false) :
    (csched i).Obeys (coreRules i) (fun _ l w => CoreRest l w) l w := by
  simpa [csched,coreRules,CoreRest,hu,ht] using fun hs => ⟨hs,hc hs⟩

theorem cschedSwitch_obeys (hu : w.user = false) (ht : w.took.map Prod.snd = next)
    (hn : next.isSome → w.ok = true → w.idling = false)
    (hc : next = none → l.cur.isSome → w.cur.isSome ∧ (w.ok = true → w.idling = false)) :
    (cschedSwitch i next).Obeys (coreRules i) (fun _ l w => CoreRest l w) l w := by
  cases next with
  | some n =>
    obtain ⟨tid,htook⟩ : ∃ tid, w.took = some (tid,n) := by simpa using ht
    simpa [cschedSwitch,goto,coreRules,CoreRest,htook] using hn rfl
  | none => cases hcur : l.cur <;> simp_all [cschedSwitch,goto,coreRules,CoreRest]

theorem cschedHaveNext_obeys (hu : w.user = false) (ht : w.took.map Prod.snd = next)
    (hn : next.isSome → w.ok = true → w.idling = false)
    (hc : next = none → l.cur.isSome → w.cur.isSome ∧ (w.ok = true → w.idling = false)) :
    (cschedHaveNext i next).Obeys (coreRules i) (fun _ l w => CoreRest l w) l w := by
  simp only [cschedHaveNext,obeys_bind,obeys_read]
  cases l.cur with
  | none => exact cschedSwitch_obeys hu ht hn hc
  | some c =>
    simp only [goto,obeys_bind,obeys_perform,obeys_ite,obeys_update]
    refine ⟨trivial,?_⟩
    rintro b _ rfl
    exact ⟨fun _ => ⟨hu,ht,hn⟩,fun _ => cschedSwitch_obeys hu ht hn hc⟩

theorem loadGens_obeys {p : BitVec 32 → BitVec 32 → Prog CoreLocal Op Res Unit}
    {post : Unit → CoreLocal → CoreView → Prop}
    (hnone : (p (word w.m) (word w.m)).Obeys (coreRules i) post l w)
    (hnew : (p (word (w.m+1)) (word w.m)).Obeys (coreRules i) post l { w with seen := true }) :
    (do let gen ← perform (.loadGen i); let last ← perform (.loadLastGen i); p gen last :
      Prog CoreLocal Op Res Unit).Obeys (coreRules i) post l w := by
  simp only [obeys_bind,obeys_perform]
  refine ⟨rfl,?_⟩
  rintro gen _ (⟨-,rfl,rfl⟩ | ⟨rfl,rfl⟩)
  · refine ⟨rfl,?_⟩
    rintro _ _ ⟨rfl,rfl⟩
    exact hnone
  · refine ⟨rfl,?_⟩
    rintro _ _ ⟨rfl,rfl⟩
    exact hnew

theorem cschedAgain_obeys (hu : w.user = false) (ht : w.took = none)
    (hc : l.cur.isSome → w.cur.isSome ∧ (w.ok = true → w.idling = false)) :
    (cschedAgain i).Obeys (coreRules i) (fun _ l w => CoreRest l w) l w := by
  apply loadGens_obeys
  · simp only [ne_eq,not_true_eq_false,if_false,obeys_bind,obeys_perform]
    refine ⟨⟨rfl,ht⟩,?_⟩
    rintro next _ rfl
    refine cschedHaveNext_obeys hu (by simp) ?_ ?_
    · intro hs hok
      simp only [Bool.and_eq_true,Bool.or_eq_true,Option.isNone_iff_eq_none,Bool.not_eq_true'] at hok
      rcases hok.2 with hnone | hidle
      · simp [hnone] at hs
      · exact hidle
    · intro _ hs
      refine ⟨(hc hs).1,fun hok => (hc hs).2 ?_⟩
      exact (Bool.and_eq_true_iff.mp hok).1
  · simp only [ne_eq,word_succ_ne,not_false_eq_true,if_true,goto,obeys_update]
    exact ⟨hu,ht,rfl⟩

/-- The store of `last_gen` acts on the request. -/
theorem storeGen_obeys {p : Prog CoreLocal Op Res Unit}
    {post : Unit → CoreLocal → CoreView → Prop} (hs : w.seen = true)
    (ht : w.tid = some (tookId w.took))
    (hp : p.Obeys (coreRules i) post l { w with m := w.m+1, seen := false, tid := none }) :
    (do let gen ← perform (.loadGen i); tell (.storeLastGen i gen); p :
      Prog CoreLocal Op Res Unit).Obeys (coreRules i) post l w := by
  simp only [obeys_bind,obeys_perform,obeys_tell]
  refine ⟨rfl,?_⟩
  rintro gen _ (⟨hf,-⟩ | ⟨rfl,rfl⟩)
  · simp [hs] at hf
  · refine ⟨⟨rfl,rfl,ht,rfl⟩,?_⟩
    rintro _ _ rfl
    exact hp

theorem cschedTid_obeys (hu : w.user = false) (ht : w.took = none) (hs : w.seen = true) :
    (cschedTid i).Obeys (coreRules i) (fun _ l w => CoreRest l w) l w := by
  simp only [cschedTid,obeys_bind,obeys_perform,obeys_ite]
  refine ⟨⟨rfl,hs⟩,?_⟩
  rintro tid _ rfl
  constructor
  · rintro rfl
    refine storeGen_obeys hs (by simp [ht,tookId]) ?_
    simp only [goto,obeys_tell,obeys_update]
    refine ⟨⟨rfl,hu⟩,?_⟩
    rintro _ _ rfl
    exact ⟨hu,ht⟩
  · intro _
    simp only [obeys_tell]
    refine ⟨⟨rfl,hs⟩,?_⟩
    rintro _ _ rfl
    refine ⟨⟨rfl,hs⟩,?_⟩
    rintro tid _ rfl
    refine ⟨trivial,?_⟩
    rintro (_ | next) _ rfl
    · trivial
    · exact ⟨hu,ht,hs,rfl,tid,rfl,rfl⟩

theorem cschedIdle_obeys (h : CoreRest l w) (hctl : l.ctl = .idleLoop) :
    (cschedIdle i).Obeys (coreRules i) (fun _ l w => CoreRest l w) l w := by
  apply loadGens_obeys
  · simpa using h
  · rw [CoreRest,hctl] at h
    simp only [ne_eq,word_succ_ne,not_false_eq_true,if_true,goto,obeys_update]
    exact ⟨h.1,h.2,rfl⟩

/-- The core has taken the cluster that it looked up for the request. -/
theorem cschedCas_obeys {n : ℕ} (h : CoreRest l w) (hctl : l.ctl = .casLoop n) :
    (cschedCas i n).Obeys (coreRules i) (fun _ l w => CoreRest l w) l w := by
  have hrest := h
  rw [CoreRest,hctl] at h
  obtain ⟨hu,ht,hs,hidle,tid,htid,hlook⟩ := h
  simp only [cschedCas,obeys_bind,obeys_perform]
  refine ⟨ht,?_⟩
  rintro r _ rfl
  rcases r with _ | _ | _
  · trivial
  · simpa using hrest
  · have htook : w.looked.filter (·.2 = n) = some (tid,n) := by simp [hlook]
    refine storeGen_obeys hs (by simp [htook,htid,tookId]) ?_
    exact cschedHaveNext_obeys hu (by simp [htook]) (fun _ _ => hidle) (fun hf => by simp at hf)

theorem cschedExit_obeys (h : CoreRest l w) (hctl : l.ctl = .exitLoop next) :
    (cschedExit i next).Obeys (coreRules i) (fun _ l w => CoreRest l w) l w := by
  have hrest := h
  rw [CoreRest,hctl] at h
  obtain ⟨hu,ht,hn⟩ := h
  simp only [cschedExit,obeys_bind,obeys_read]
  cases hc : l.cur with
  | none => exact cschedSwitch_obeys hu ht hn (fun _ hs => by simp [hc] at hs)
  | some c =>
    simp only [obeys_bind,obeys_perform,obeys_ite,obeys_pure,obeys_tell,obeys_update]
    refine ⟨trivial,?_⟩
    rintro b _ rfl
    refine ⟨fun _ => hrest,fun _ => ⟨trivial,?_⟩⟩
    rintro _ _ rfl
    exact cschedSwitch_obeys hu ht hn (fun _ hs => by simp at hs)

theorem mwaitRound_obeys (h : CoreRest l w) (hctl : l.ctl = .mwaitLoop) :
    (mwaitRound i).Obeys (coreRules i) (fun _ l w => CoreRest l w) l w := by
  apply loadGens_obeys
  · simpa using h
  · rw [CoreRest,hctl] at h
    simp only [ne_eq,word_succ_ne,not_false_eq_true,if_true,obeys_bind,obeys_tell]
    refine ⟨⟨rfl,rfl⟩,?_⟩
    rintro _ _ rfl
    exact csched_obeys h.1 h.2 fun _ _ => rfl

theorem clusterYield_obeys (hu : w.cur = none → w.user = false) (ht : w.took = none) :
    (clusterYield i).Obeys (coreRules i) (fun _ l w => CoreRest l w) l w := by
  simp only [clusterYield,obeys_bind,obeys_perform]
  refine ⟨rfl,?_⟩
  rintro _ w ⟨rfl,rfl⟩
  cases hc : w.cur with
  | none => exact csched_obeys (hu hc) ht (fun hs => by simp [hc] at hs)
  | some cur =>
    simp only [yield,obeys_bind,obeys_tell,coreRules,true_and,forall_eq,forall_const,if_true,ht,
      Option.map_none]
    exact csched_obeys rfl rfl (fun hs => by simp at hs)

theorem clusterMwait_obeys (ht : w.took = none) :
    (clusterMwait i).Obeys (coreRules i) (fun _ l w => CoreRest l w) l w := by
  simp only [clusterMwait,obeys_bind,obeys_perform]
  refine ⟨rfl,?_⟩
  rintro _ w ⟨rfl,rfl⟩
  cases hc : w.cur with
  | none => exact trivial
  | some cur => simp [mwait,goto,coreRules,CoreRest,ht]

theorem clusterExit_obeys (hi : w.ok = true → w.idling = false) (ht : w.took = none) :
    (clusterExit i).Obeys (coreRules i) (fun _ l w => CoreRest l w) l w := by
  simp only [clusterExit,obeys_bind,obeys_perform]
  refine ⟨rfl,?_⟩
  rintro _ w ⟨rfl,rfl⟩
  cases hc : w.cur with
  | none => exact trivial
  | some cur =>
    simp only [obeys_bind,obeys_tell,coreRules,true_and,forall_eq,forall_const]
    exact csched_obeys rfl ht fun _ => hi

theorem coreBody_obeys (h : CoreRest l w) {c : CoreCall} (hc : c.allowed l) :
    (coreBody i c).Obeys (coreRules i) (fun _ l w => CoreRest l w) l w := by
  have hrest := h
  cases c with
  | step =>
    simp only [coreBody,cschedStep,obeys_bind,obeys_read]
    rw [CoreRest] at h
    cases hctl : l.ctl <;> rw [hctl] at h
    case boot => exact clusterYield_obeys (fun _ => h.1) h.2.1
    case user => exact absurd hctl hc.1
    case again => exact cschedAgain_obeys h.1 h.2.1 h.2.2
    case tidLoop => exact cschedTid_obeys h.1 h.2.1 h.2.2
    case idleLoop => exact cschedIdle_obeys hrest hctl
    case casLoop n => exact cschedCas_obeys hrest hctl
    case exitLoop next => exact cschedExit_obeys hrest hctl
    case mwaitLoop => exact mwaitRound_obeys hrest hctl
    case halted => exact absurd hctl hc.2
  | yield =>
    rw [CoreRest,show l.ctl = .user from hc] at h
    exact clusterYield_obeys (fun hn => by simp [hn] at h) h.1
  | mwait =>
    rw [CoreRest,show l.ctl = .user from hc] at h
    exact clusterMwait_obeys h.1
  | exit =>
    rw [CoreRest,show l.ctl = .user from hc] at h
    exact clusterExit_obeys h.2.2 h.1
  | spawn pref inMask => exact clusterSpawn_obeys h pref inMask

end Cores

/-! ### Every run -/

/-- The iokernel with any policy, the cores and the daemon. -/
abbrev handshakeSystem (mc : Machine) := system (schedBody mc) SchedCall.allowed

section Outline

variable {mc : Machine} {base : ℕ → ℕ} {m : Mem} {t : SystemTrace SchedCall} {v : ℕ → IokCore}
  {w : ℕ → CoreView}

theorem handInv_start (h : HandInv m t v w) (i : Party) (c : PartyCall SchedCall i) :
    HandInv m (.start i c::t) v w :=
  ⟨h.core,h.pops,handEvent_cons trivial⟩

theorem handInv_done (h : HandInv m t v w) (i : Party) (c : PartyCall SchedCall i) :
    HandInv m (.done i c ()::t) v w :=
  ⟨h.core,h.pops,handEvent_cons trivial⟩

theorem update_core_view (gs : (i : Party) → HandshakeView i) (j : ℕ) (g : CoreView) :
    (fun c => update gs (.core j) g (.core c)) =
      update (fun c => gs (.core c)) j g := by
  funext c
  by_cases hc : c = j
  · subst hc
    simp
  · simp [hc]

def handshakeOutline (mc : Machine) (base : ℕ → ℕ) :
    Outline (handshakeSystem mc) HandshakeView where
  rules := handshakeRules
  inv m t gs := HandInv m t (gs .iok) fun c => gs (.core c)
  rest
    | .iok => IokRest mc base
    | .daemon => fun _ _ => True
    | .core _ => CoreRest
  post
    | .iok => fun _ _ => IokRest mc base
    | .daemon => fun _ _ _ _ => True
    | .core _ => fun _ _ => CoreRest
  start := by
    intro m t gs i s c hinv hrest hall
    refine ⟨gs i,by rw [update_eq_self]; exact handInv_start hinv i c,?_⟩
    cases i with
    | iok => exact schedBody_obeys hrest hall
    | daemon => exact taskInit_obeys c
    | core i => exact coreBody_obeys hrest hall
  act := by
    intro m t gs i op r m' hinv hmay hsem
    cases i with
    | iok =>
      obtain ⟨g,hn,hg⟩ := iok_act hinv hmay hsem
      exact ⟨g,hn,by simpa using hg⟩
    | daemon =>
      refine ⟨(),trivial,?_⟩
      simpa using daemon_act hinv hmay hsem
    | core j =>
      obtain ⟨g,hn,hg⟩ := core_act hinv hmay hsem
      exact ⟨g,hn,by rw [update_core_view]; simpa using hg⟩
  done := by
    intro m t gs i s c u hinv hpost
    refine ⟨gs i,by rw [update_eq_self]; exact handInv_done hinv i c,?_⟩
    cases i with
    | iok => exact hpost
    | daemon => trivial
    | core i => exact hpost

theorem handshake_initial {s₀ : Sched} (hcores : ∀ c, s₀.state c = ⟨none,none,false,false,false⟩)
    (hclients : s₀.clients = []) :
    (handshakeOutline mc fun p => (s₀.procs p).ref).Covers (systemStart s₀) := by
  let gs : (i : Party) → HandshakeView i
    | .iok => fun _ => ⟨0,.quiet,false⟩
    | .daemon => ()
    | .core _ => ⟨0,false,none,none,none,false,false,none,true⟩
  refine ⟨gs,?_,?_⟩
  · refine ⟨fun c => ?_,fun _ _ => rfl,fun _ _ ht => by simp [systemStart] at ht⟩
    constructor <;> simp [gs,systemStart,snap,Mem.initial,history,Phase.bump]
  · rintro (_ | _ | i)
    · exact ⟨schedInv_initial hcores hclients,fun c => by simp [gs,systemStart,hcores]⟩
    · trivial
    · exact ⟨rfl,rfl,rfl⟩

end Outline

theorem handshake_covered {mc : Machine} {s₀ : Sched} {cfg : SystemConfig Sched SchedCall}
    (hcores : ∀ c, s₀.state c = ⟨none,none,false,false,false⟩) (hclients : s₀.clients = [])
    (hr : (handshakeSystem mc).Reach (systemStart s₀) cfg) :
    ∃ v w, HandInv cfg.mem cfg.trace v w := by
  obtain ⟨gs,hinv,-⟩ := Outline.covers (handshake_initial hcores hclients) hr
  exact ⟨_,_,hinv⟩

theorem CoreInv.distance {k : Snap} {h : Hist} {v : IokCore} {w : CoreView}
    (i : CoreInv k h v w) : k.gens - k.conn.lastGen = 0 ∨ k.gens - k.conn.lastGen = 1 := by
  have hone : word (w.m+1) - word w.m = 1 := by
    rw [← word_add_one,BitVec.add_comm,BitVec.add_sub_cancel]
  rw [i.gens,i.last]
  rcases i.count with hn | ⟨hn,hp⟩
  · cases hb : v.phase with
    | quiet | out => exact Or.inl (by simp [hn,Phase.bump])
    | bumped | staged _ =>
      right
      rw [hn]
      exact hone
  · right
    rw [hn,hp]
    exact hone

/-- Requests to a core: at most one is outstanding, the core acts on exactly the issued
ones, in order and with their own `next_tid`, and none is overwritten before that.  The core acts on
a request by the cluster it takes, and it switches to this one before it takes another. -/
theorem runRequest_handshake (mc : Machine) {s₀ : Sched} {cfg : SystemConfig Sched SchedCall}
    (hcores : ∀ c, s₀.state c = ⟨none,none,false,false,false⟩) (hclients : s₀.clients = [])
    (hr : (handshakeSystem mc).Reach (systemStart s₀) cfg) (c : ℕ) :
    (cfg.mem.kschedGens c - (cfg.mem.conn c).lastGen = 0 ∨
      cfg.mem.kschedGens c - (cfg.mem.conn c).lastGen = 1) ∧
    (history c cfg.trace).acted <+: (history c cfg.trace).issued ∧
    (history c cfg.trace).issued.length ≤ (history c cfg.trace).acted.length + 1 ∧
    (∀ k x, (history c cfg.trace).issued[k]? = some x → x.1 = word (k+1)) ∧
    (∀ i tid u t, cfg.trace = .act i (.storeNextTid c tid) u::t →
      (history c t).acted = (history c t).issued) ∧
    (∀ i x u t, cfg.trace = .act i (.storeCurCluster c x) u::t →
      (history c t).took.map Prod.snd = x) ∧
    (∀ i r t, cfg.trace = .act i (.popCluster c) r::t → (history c t).took = none) ∧
    ∀ a r t, cfg.trace = .act (.core c) (.casParked a) r::t → (history c t).took = none := by
  obtain ⟨v,w,hinv⟩ := handshake_covered hcores hclients hr
  have h := hinv.core c
  have hlen := h.issued_len
  refine ⟨h.distance,?_,?_,h.issued_gen,fun i tid u t ht => hinv.last _ _ ht,
    fun i x u t ht => hinv.last _ _ ht,fun i r t ht => hinv.last _ _ ht,
    fun a r t ht => hinv.last _ _ ht⟩
  · rw [h.acted]
    exact List.take_prefix _ _
  · rw [h.acted,List.length_take,hlen]
    rcases h.count with hn | ⟨hn,-⟩ <;> omega

/-- The processes' threads have the id of the second cluster. -/
def Sched.second : Sched :=
  { Sched.fresh with procs := fun _ => ⟨1,false,2,0,fun _ => ⟨false,2,0,0⟩,id,[],id⟩ }

/-- Core 1 runs cluster 2, which yields; core 0 is asked for it and switches to it, while cluster 1
still waits in the list of core 0. -/
theorem request_reach : ∃ cfg : SystemConfig Sched SchedCall,
    (handshakeSystem oneCore).Reach (systemStart .second) cfg ∧
      (history 0 cfg.trace).acted = [(1,2)] ∧ cfg.mem.curCluster 0 = some 6 ∧
      cfg.mem.clusterPtr 2 = some 6 ∧ popsAwake cfg.trace = true ∧
      (cfg.mem.conn 1).idling = true ∧ cfg.mem.user 0 = true := by
  have hrun : ((handshakeSystem oneCore).play exec (Move.runs [
      ⟨.daemon,(0 : ℕ),6,5⟩,⟨.daemon,(1 : ℕ),6,6⟩,⟨.core 1,.step,6,0⟩,⟨.core 1,.step,12,0⟩,
      ⟨.core 1,.yield,10,0⟩,⟨.iok,SchedCall.attach 0 true,3,0⟩,⟨.iok,SchedCall.run 0 0,11,0⟩,
      ⟨.core 0,.step,6,0⟩,⟨.core 0,.step,6,0⟩,⟨.core 0,.step,8,0⟩,⟨.core 0,.step,12,0⟩])
      (systemStart .second)).map (fun c => ((history 0 c.trace).acted,c.mem.curCluster 0,
        c.mem.clusterPtr 2,popsAwake c.trace,(c.mem.conn 1).idling,c.mem.user 0)) =
      some ([(1,2)],some 6,some 6,true,true,true) := by
    decide +kernel
  obtain ⟨cfg,hreach,hval⟩ := Threads.exists_reach exec_sem hrun
  simp only [Prod.mk.injEq] at hval
  exact ⟨cfg,hreach,hval⟩

/-- A core is asked for a cluster and has switched to it. -/
theorem runRequest_handshake_switched :
    ∃ (mc : Machine) (s₀ : Sched) (cfg : SystemConfig Sched SchedCall),
      (handshakeSystem mc).Reach (systemStart s₀) cfg ∧ (history 0 cfg.trace).acted = [(1,2)] ∧
      (history 0 cfg.trace).acted <+: (history 0 cfg.trace).issued ∧
      cfg.mem.clusterPtr 2 = some 6 ∧ cfg.mem.curCluster 0 = some 6 := by
  obtain ⟨cfg,hreach,hacted,hcur,hptr,-⟩ := request_reach
  exact ⟨oneCore,.second,cfg,hreach,hacted,
    (runRequest_handshake oneCore (fun _ => rfl) rfl hreach 0).2.1,hptr,hcur⟩

/-- As long as local pops are made with the idle flag cleared, a core whose flag is set
runs no user code; nor does a core that the iokernel takes for idle. -/
theorem idleFlag_truthful (mc : Machine) {s₀ : Sched} {cfg : SystemConfig Sched SchedCall}
    (hcores : ∀ c, s₀.state c = ⟨none,none,false,false,false⟩) (hclients : s₀.clients = [])
    (hr : (handshakeSystem mc).Reach (systemStart s₀) cfg) (hpops : popsAwake cfg.trace = true)
    (c : ℕ) :
    ((cfg.mem.conn c).idling = true → cfg.mem.user c = false) ∧
    (takenForIdle c cfg.trace = true → cfg.mem.user c = false) := by
  obtain ⟨v,w,hinv⟩ := handshake_covered hcores hclients hr
  have h := hinv.core c
  have hflag : (cfg.mem.conn c).idling = true → cfg.mem.user c = false := by
    intro hidle
    have hw : (w c).idling = true := by rw [← h.idling]; exact hidle
    exact h.user.trans (h.awake (hinv.pops hpops c) hw)
  exact ⟨hflag,fun ht => hflag (hinv.taken ht)⟩

/-- The cluster of core 1 has yielded and runs on core 0 by now. -/
theorem idleFlag_truthful_yielded :
    ∃ (mc : Machine) (s₀ : Sched) (cfg : SystemConfig Sched SchedCall),
      (handshakeSystem mc).Reach (systemStart s₀) cfg ∧ popsAwake cfg.trace = true ∧
      (cfg.mem.conn 1).idling = true ∧ cfg.mem.user 1 = false ∧ cfg.mem.user 0 = true ∧
      (cfg.mem.conn 0).idling = false := by
  obtain ⟨cfg,hreach,-,-,-,hpops,hidle,hu⟩ := request_reach
  have h := idleFlag_truthful oneCore (fun _ => rfl) rfl hreach hpops
  refine ⟨oneCore,.second,cfg,hreach,hpops,hidle,(h 1).1 hidle,hu,?_⟩
  have hflag := (h 0).1
  simpa [hu] using hflag

/-- After a yield the core pops the next cluster of its own list and runs it with the
idle flag still set; a poll of the iokernel then takes the busy core for idle. -/
theorem idleFlag_set_while_running :
    ∃ (mc : Machine) (s₀ : Sched) (cfg : SystemConfig Sched SchedCall),
      (∀ c, s₀.state c = ⟨none,none,false,false,false⟩) ∧ s₀.clients = [] ∧
      (handshakeSystem mc).Reach (systemStart s₀) cfg ∧
      (cfg.mem.conn 0).idling = true ∧ cfg.mem.user 0 = true ∧
      takenForIdle 0 cfg.trace = true := by
  have hrun : ((handshakeSystem oneCore).play exec (Move.runs [
      -- two tasks start on core 0, which boots and runs the first one
      ⟨.daemon,(0 : ℕ),6,1⟩,⟨.daemon,(0 : ℕ),6,2⟩,⟨.core 0,.step,6,0⟩,⟨.core 0,.step,12,0⟩,
      -- it yields, and the second one is popped
      ⟨.core 0,.yield,10,0⟩,⟨.core 0,.step,12,0⟩,⟨.iok,SchedCall.poll [] [],3,0⟩])
      (systemStart .fresh)).map (fun c =>
        ((c.mem.conn 0).idling,c.mem.user 0,takenForIdle 0 c.trace)) = some (true,true,true) := by
    decide +kernel
  obtain ⟨cfg,hreach,hval⟩ := Threads.exists_reach exec_sem hrun
  obtain ⟨hidle,huser,htaken⟩ : _ ∧ _ ∧ _ := by simpa using hval
  exact ⟨oneCore,.fresh,cfg,fun _ => rfl,rfl,hreach,hidle,huser,htaken⟩

end Vessel
