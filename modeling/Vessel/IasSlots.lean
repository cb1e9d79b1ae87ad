import Vessel.Ias
import Vessel.Machine
import Mathlib.Data.List.Range

/-! The table `ias_procs` along sequences of attaches and detaches.
`ias_procs_nr` never goes down: it is the largest number of processes that were attached at the
same time. -/
namespace Vessel.Ias

open Function List

/-- `addr` is what `malloc` returned, or the block of the process that leaves. -/
inductive Event
  | attach (proc : ℕ) (guaranteed : BitVec 32) (addr : Option ℕ)
  | detach (addr : ℕ)
  deriving DecidableEq

/-- The memory allocator returns no block in use, and only an attached process is detached. -/
def step (m : Cpus) (s : State) : Event → Option State
  | .attach proc guaranteed addr =>
    if s.allProcs.any fun d => addr = some d.addr then none
    else some (iasAttach m s proc guaranteed addr).1
  | .detach addr => (s.allProcs.find? fun d => d.addr = addr).map (iasDetach s)

/-- No process is attached yet. -/
def start (reserved : Bitmap) : State := ⟨[],reserved,fun _ => none,0,fun _ => none⟩

/-- An attach is refused for the number of processes only if there are `IAS_NPROC` of them. -/
def RefusesRightly (m : Cpus) (s : State) : Prop :=
  ∀ proc guaranteed addr, (iasAttach m s proc guaranteed addr).2 = .tooMany →
    s.allProcs.length = iasNproc

/-- The attached processes and the table agree. -/
structure Slots (s : State) : Prop where
  listed : ∀ d ∈ s.allProcs, d.idx < s.procsNr ∧ s.procs d.idx = some d.addr
  filled : ∀ i, s.procs i ≠ none → ∃ d ∈ s.allProcs, d.idx = i
  idxs : (s.allProcs.map Data.idx).Nodup
  addrs : (s.allProcs.map Data.addr).Nodup
  bound : s.procsNr ≤ iasNproc

/-- No process is detached while `IAS_NPROC` are attached. -/
def NotFull (s : State) : Event → Prop
  | .attach .. => True
  | .detach _ => s.allProcs.length ≠ iasNproc

instance (s : State) : (e : Event) → Decidable (NotFull s e)
  | .attach .. => inferInstanceAs (Decidable True)
  | .detach _ => inferInstanceAs (Decidable (_ ≠ _))

section Steps

variable {m : Cpus} {s t : State} {d : Data}

theorem start_slots (reserved : Bitmap) : Slots (start reserved) where
  listed d hd := by simp [start] at hd
  filled i h := absurd rfl h
  idxs := nodup_nil
  addrs := nodup_nil
  bound := Nat.zero_le _

theorem freeIndex_cases (s : State) :
    (freeIndex s < s.procsNr ∧ s.procs (freeIndex s) = none) ∨
      freeIndex s = s.procsNr ∧ ∀ i < s.procsNr, s.procs i ≠ none := by
  unfold freeIndex
  cases hfind : (List.range s.procsNr).find? fun i => (s.procs i).isNone with
  | some i =>
    have hlt := mem_range.mp (mem_of_find?_eq_some hfind)
    have hnone := find?_some hfind
    exact Or.inl ⟨hlt,by simpa using hnone⟩
  | none =>
    refine Or.inr ⟨rfl,fun i hi hnone => ?_⟩
    have := find?_eq_none.mp hfind i (mem_range.mpr hi)
    simp [hnone] at this

theorem freeIndex_fresh (h : Slots s) : ∀ d ∈ s.allProcs, d.idx ≠ freeIndex s := by
  intro d hd heq
  obtain ⟨hlt,hsome⟩ := h.listed d hd
  rcases freeIndex_cases s with ⟨-,hnone⟩ | ⟨hend,-⟩
  · rw [heq,hnone] at hsome
    contradiction
  · omega

theorem Slots.length_le (h : Slots s) : s.allProcs.length ≤ s.procsNr := by
  have hsub : s.allProcs.map Data.idx ⊆ List.range s.procsNr := by
    intro i hi
    obtain ⟨d,hd,rfl⟩ := mem_map.mp hi
    exact mem_range.mpr (h.listed d hd).1
  have hle := (h.idxs.subperm hsub).length_le
  rwa [length_map,length_range] at hle

theorem Slots.length_eq (h : Slots s) (hfull : ∀ i < s.procsNr, s.procs i ≠ none) :
    s.allProcs.length = s.procsNr := by
  refine le_antisymm h.length_le ?_
  have hsub : List.range s.procsNr ⊆ s.allProcs.map Data.idx := by
    intro i hi
    obtain ⟨d,hd,hidx⟩ := h.filled i (hfull i (mem_range.mp hi))
    exact mem_map.mpr ⟨d,hd,hidx⟩
  have hle := (nodup_range.subperm hsub).length_le
  rwa [length_map,length_range] at hle

/-- The entry for a new process is one that was used before, or the next one if all are in use. -/
theorem Slots.grow (h : Slots s) :
    max s.procsNr (freeIndex s+1) = s.procsNr ∨
      max s.procsNr (freeIndex s+1) = s.procsNr+1 ∧ s.allProcs.length = s.procsNr := by
  rcases freeIndex_cases s with ⟨hlt,-⟩ | ⟨hend,hfull⟩
  · exact Or.inl (by omega)
  · exact Or.inr ⟨by omega,h.length_eq hfull⟩

theorem Slots.attach {a proc : ℕ} {own reserved : Bitmap} (h : Slots s)
    (hroom : s.procsNr < iasNproc) (hfresh : ∀ d ∈ s.allProcs, d.addr ≠ a) :
    Slots { s with
      allProcs := ⟨a,proc,freeIndex s,own⟩::s.allProcs
      reserved := reserved
      procs := update s.procs (freeIndex s) (some a)
      procsNr := max s.procsNr (freeIndex s+1) } where
  listed d hd := by
    rcases mem_cons.mp hd with rfl | hd
    · exact ⟨by dsimp only; omega,by simp⟩
    · obtain ⟨hlt,hsome⟩ := h.listed d hd
      refine ⟨by dsimp only; omega,?_⟩
      dsimp only
      rw [update_of_ne (freeIndex_fresh h d hd),hsome]
  filled i hi := by
    by_cases heq : i = freeIndex s
    · exact ⟨_,mem_cons_self,heq.symm⟩
    · dsimp only at hi
      rw [update_of_ne heq] at hi
      obtain ⟨d,hd,hidx⟩ := h.filled i hi
      exact ⟨d,mem_cons_of_mem _ hd,hidx⟩
  idxs := by
    refine nodup_cons.mpr ⟨fun hmem => ?_,h.idxs⟩
    obtain ⟨d,hd,hidx⟩ := mem_map.mp hmem
    exact freeIndex_fresh h d hd hidx
  addrs := by
    refine nodup_cons.mpr ⟨fun hmem => ?_,h.addrs⟩
    obtain ⟨d,hd,haddr⟩ := mem_map.mp hmem
    exact hfresh d hd haddr
  bound := by
    rcases h.grow with heq | ⟨heq,-⟩ <;> dsimp only <;> omega

theorem Slots.mem_detach (h : Slots s) (hd : d ∈ s.allProcs) {d' : Data} :
    d' ∈ (iasDetach s d).allProcs ↔ d' ∈ s.allProcs ∧ d'.idx ≠ d.idx := by
  have hpair : s.allProcs.Pairwise fun d d' => d.addr ≠ d'.addr := pairwise_map.mp h.addrs
  change d' ∈ s.allProcs.eraseP _ ↔ _
  constructor
  · intro hmem
    refine ⟨mem_of_mem_eraseP hmem,fun hidx => ?_⟩
    -- the entry of the table tells the block
    have haddr : d'.addr = d.addr := by
      have h' := (h.listed d' (mem_of_mem_eraseP hmem)).2
      rw [hidx,(h.listed d hd).2] at h'
      exact (Option.some.inj h').symm
    obtain ⟨a,l₁,l₂,hl,ha,hs,herase⟩ :=
      exists_of_eraseP (p:=fun d' => d'.addr = d.addr) hd (by simp)
    rw [herase] at hmem
    rw [hs,pairwise_append] at hpair
    rcases mem_append.mp hmem with hmem | hmem
    · exact absurd (by simpa using haddr) (hl d' hmem)
    · have := (pairwise_cons.mp hpair.2.1).1 d' hmem
      simp only [decide_eq_true_eq] at ha
      exact this (ha.trans haddr.symm)
  · rintro ⟨hmem,hidx⟩
    refine (mem_eraseP_of_neg ?_).mpr hmem
    simp only [decide_eq_true_eq]
    intro haddr
    have hinj := inj_on_of_nodup_map h.addrs hmem hd haddr
    exact hidx (by rw [hinj])

theorem Slots.length_detach (hd : d ∈ s.allProcs) :
    (iasDetach s d).allProcs.length = s.allProcs.length-1 :=
  length_eraseP_of_mem hd (by simp)

/-- The index is never `ias_procs_nr`, which is thus not decremented. -/
theorem Slots.procsNr_detach (h : Slots s) (hd : d ∈ s.allProcs) :
    (iasDetach s d).procsNr = s.procsNr := by
  have hlt := (h.listed d hd).1
  exact if_neg (by omega)

theorem Slots.detach (h : Slots s) (hd : d ∈ s.allProcs) : Slots (iasDetach s d) where
  listed d' hd' := by
    obtain ⟨hmem,hidx⟩ := (h.mem_detach hd).mp hd'
    obtain ⟨hlt,hsome⟩ := h.listed d' hmem
    refine ⟨by rw [h.procsNr_detach hd]; exact hlt,?_⟩
    change update s.procs d.idx none d'.idx = _
    rw [update_of_ne hidx,hsome]
  filled i hi := by
    change update s.procs d.idx none i ≠ none at hi
    have hne : i ≠ d.idx := by
      rintro rfl
      simp at hi
    rw [update_of_ne hne] at hi
    obtain ⟨d',hmem,rfl⟩ := h.filled i hi
    exact ⟨d',(h.mem_detach hd).mpr ⟨hmem,hne⟩,rfl⟩
  idxs := h.idxs.sublist (eraseP_sublist.map _)
  addrs := h.addrs.sublist (eraseP_sublist.map _)
  bound := by
    rw [h.procsNr_detach hd]
    exact h.bound

theorem step_cases {e : Event} (h : step m s e = some t) :
    (∃ proc guaranteed addr, e = .attach proc guaranteed addr ∧
      (∀ a, addr = some a → ∀ d ∈ s.allProcs, d.addr ≠ a) ∧
      t = (iasAttach m s proc guaranteed addr).1) ∨
    ∃ d ∈ s.allProcs, e = .detach d.addr ∧ t = iasDetach s d := by
  cases e with
  | attach proc guaranteed addr =>
    simp only [step,Option.ite_none_left_eq_some,any_eq_true,decide_eq_true_eq,
      not_exists,not_and,Option.some.injEq] at h
    refine Or.inl ⟨proc,guaranteed,addr,rfl,?_,h.2.symm⟩
    rintro a rfl d hd rfl
    exact h.1 d hd rfl
  | detach addr =>
    obtain ⟨d,hfind,rfl⟩ := Option.map_eq_some_iff.mp h
    have haddr := find?_some hfind
    simp only [decide_eq_true_eq] at haddr
    exact Or.inr ⟨d,mem_of_find?_eq_some hfind,by rw [haddr],rfl⟩

theorem step_slots {e : Event} (hs : Slots s) (h : step m s e = some t) : Slots t := by
  rcases step_cases h with ⟨proc,guaranteed,addr,-,hfresh,rfl⟩ | ⟨d,hd,-,rfl⟩
  · have hout := iasAttach_attached m s proc guaranteed addr
    generalize iasAttach m s proc guaranteed addr = r at hout
    cases hout with
    | tooMany | odd | noMem => exact hs
    | failReserve => exact { hs with }
    | ok hroom ha _ _ => exact hs.attach hroom (hfresh _ ha)
  · exact hs.detach hd

theorem step_full {e : Event} (hs : Slots s) (hok : NotFull s e)
    (hfull : s.procsNr = iasNproc → s.allProcs.length = iasNproc) (h : step m s e = some t) :
    t.procsNr = iasNproc → t.allProcs.length = iasNproc := by
  rcases step_cases h with ⟨proc,guaranteed,addr,-,-,rfl⟩ | ⟨d,hd,rfl,rfl⟩
  · have hout := iasAttach_attached m s proc guaranteed addr
    generalize iasAttach m s proc guaranteed addr = r at hout
    cases hout with
    | tooMany | odd | noMem | failReserve => exact hfull
    | ok hroom _ _ _ =>
      dsimp only
      rw [length_cons]
      have := hs.grow
      omega
  · rw [hs.procsNr_detach hd]
    exact fun hnr => absurd (hfull hnr) hok

theorem refusesRightly_iff (hs : Slots s) :
    RefusesRightly m s ↔ (s.procsNr = iasNproc → s.allProcs.length = iasNproc) := by
  have hbound := hs.bound
  constructor
  · intro h hnr
    refine h 0 0 none ?_
    rw [iasAttach,if_pos (by omega)]
  · intro h proc guaranteed addr hret
    have hout := iasAttach_attached m s proc guaranteed addr
    generalize iasAttach m s proc guaranteed addr = r at hout hret
    cases hout with
    | tooMany hfull => exact h (by omega)
    | _ => simp at hret

end Steps

/-! ### Runs -/

section Runs

variable {m : Cpus} {s t : State} {es : List Event}

/-- A process that leaves a full table makes the next one be refused. -/
theorem notFull_of_refusesRightly {e : Event} (hs : Slots s) (h : step m s e = some t)
    (hright : RefusesRightly m t) : NotFull s e := by
  rcases step_cases h with ⟨proc,guaranteed,addr,rfl,-,-⟩ | ⟨d,hd,rfl,rfl⟩
  · trivial
  · intro hlen
    have hnr : s.procsNr = iasNproc := le_antisymm hs.bound (hlen ▸ hs.length_le)
    have := (refusesRightly_iff (hs.detach hd)).mp hright (by rw [hs.procsNr_detach hd,hnr])
    rw [Slots.length_detach hd,hlen] at this
    simp [iasNproc] at this

theorem refusesRightly_run (hs : Slots s)
    (hfull : s.procsNr = iasNproc → s.allProcs.length = iasNproc)
    (hrun : Machine.run (step m) s es = some t) :
    (∀ us, us <+: es → ∀ u ∈ Machine.run (step m) s us, RefusesRightly m u) ↔
      Machine.Along (step m) NotFull s es := by
  constructor
  · intro h
    induction es generalizing s with
    | nil => trivial
    | cons e es ih =>
      obtain ⟨u,hu,hrun⟩ := Option.bind_eq_some_iff.mp hrun
      have hone : RefusesRightly m u :=
        h [e] (prefix_cons_inj e |>.mpr nil_prefix) u (by simp [Machine.run,hu])
      have hok := notFull_of_refusesRightly hs hu hone
      refine ⟨hok,fun u' hu' => ?_⟩
      obtain rfl : u = u' := Option.some.inj (hu.symm.trans hu')
      refine ih (step_slots hs hu) (step_full hs hok hfull hu) hrun fun us hus v hv => ?_
      exact h (e::us) ((prefix_cons_inj e).mpr hus) v (by simpa [Machine.run,hu] using hv)
  · intro h us hus u hu
    have hstep : ∀ {s t e}, (Slots s ∧ (s.procsNr = iasNproc → s.allProcs.length = iasNproc)) →
        NotFull s e → step m s e = some t →
        Slots t ∧ (t.procsNr = iasNproc → t.allProcs.length = iasNproc) :=
      fun hs hok h => ⟨step_slots hs.1 h,step_full hs.1 hok hs.2 h⟩
    obtain ⟨vs,rfl⟩ := hus
    have := Machine.run_invariant hstep ⟨hs,hfull⟩ h.of_append hu
    exact (refusesRightly_iff this.1).mpr this.2

theorem slots_recycled_iff {reserved : Bitmap}
    (hrun : Machine.run (step m) (start reserved) es = some t) :
    (∀ us, us <+: es → ∀ u ∈ Machine.run (step m) (start reserved) us,
      (u.allProcs.map Data.idx).Nodup ∧ ∀ d ∈ u.allProcs, d.idx < iasNproc) ∧
    ((∀ us, us <+: es → ∀ u ∈ Machine.run (step m) (start reserved) us, RefusesRightly m u) ↔
      Machine.Along (step m) NotFull (start reserved) es) := by
  refine ⟨fun us hus u hu => ?_,?_⟩
  · have h : Slots u := Machine.run_keeps step_slots (start_slots reserved) hu
    exact ⟨h.idxs,fun d hd => (h.listed d hd).1.trans_le h.bound⟩
  · refine refusesRightly_run (start_slots reserved) (fun h => ?_) hrun
    simp [start,iasNproc] at h

end Runs

theorem slots_recycled_iff_pair : ∃ s,
    Machine.run (step quad) (start fun _ => false)
      [.attach 1 2 (some 10),.attach 2 2 (some 11),.detach 10,.attach 3 2 (some 12)] = some s ∧
    s.allProcs.map Data.idx = [0,1] ∧ RefusesRightly quad s := by
  obtain ⟨s,hrun,hidx⟩ : ∃ s ∈ Machine.run (step quad) (start fun _ => false)
      [.attach 1 2 (some 10),.attach 2 2 (some 11),.detach 10,.attach 3 2 (some 12)],
      s.allProcs.map Data.idx = [0,1] := by decide +kernel
  exact ⟨s,hrun,hidx,((slots_recycled_iff hrun).2.mpr (by decide +kernel)) _ (prefix_refl _) s hrun⟩

/-- Of 32 processes one has left, and still the next one is refused. -/
theorem attach_refused_with_free_slot :
    ∃ s ∈ Machine.run (step quad) (start fun _ => false)
        ((List.range 32).map (fun i => .attach i 0 (some i))++[.detach 5]),
      s.allProcs.length = 31 ∧ (iasAttach quad s 40 0 (some 40)).2 = .tooMany := by
  decide +kernel

end Vessel.Ias
