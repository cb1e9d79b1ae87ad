import Vessel.Machine
import Mathlib.Data.List.Nodup
import Mathlib.Logic.Function.Basic

/-! The table of clusters (`core/cluster.c`).
`alloc_cluster` hands out ids from a counter and enters the new cluster in
`cluster_id2cluster_ptr`, where `csched` looks up the cluster that it is told to run. -/
namespace Vessel.ClusterRegistry

open Function List Option

def nCluster : ℕ := 128

/-- A block that `malloc` returned for a cluster. -/
abbrev Addr := ℕ

/-- `id_cnt` and `cluster_id2cluster_ptr`; entries from `nCluster` on are the memory behind the
array.  `live` are the clusters that are not freed, with their ids, and `assigned` all the ids
ever written to a cluster. -/
structure Registry where
  idCnt : ℕ
  table : ℕ → Option Addr
  live : List (Addr × ℕ)
  assigned : List ℕ

def clusterInit : Registry := ⟨1,fun _ => none,[],[]⟩

/-- `new` is the block that `malloc` returned. -/
def allocCluster (r : Registry) (new : Addr) : Registry × Option Addr :=
  if nCluster < r.idCnt then (r,none)
  else
    ({ idCnt := r.idCnt+1
       table := update r.table r.idCnt (some new)
       live := r.live ++ [(new,r.idCnt)]
       assigned := r.assigned ++ [r.idCnt] },some new)

/-- The block is freed and the table stays as it is. -/
def deallocCluster (r : Registry) (ctx : Addr) : Registry :=
  { r with live := r.live.filter fun c => c.1 ≠ ctx }

/-- The lookup in `csched`. -/
def lookup (r : Registry) (nextTid : ℕ) : Option Addr := r.table nextTid

inductive Event
  | alloc (new : Addr)
  | dealloc (ctx : Addr)
  deriving DecidableEq

def Event.isAlloc : Event → Bool
  | .alloc _ => true
  | .dealloc _ => false

/-- `malloc` returns no block that is in use, and only a cluster that exists is freed. -/
def step (r : Registry) : Event → Option Registry
  | .alloc new => if new ∈ r.live.map Prod.fst then none else some (allocCluster r new).1
  | .dealloc ctx => if ctx ∈ r.live.map Prod.fst then some (deallocCluster r ctx) else none

/-- Ids are distinct and index the array, and an entry of the array is the live cluster with
that id or NULL. -/
structure Sound (r : Registry) : Prop where
  distinct : (r.live.map Prod.snd).Nodup
  inside : ∀ id ∈ r.assigned, id < nCluster
  entries : ∀ id < nCluster, ∀ ctx ∈ lookup r id, (ctx,id) ∈ r.live

/-! ### Histories -/

/-- What holds after any history with `n` allocations. -/
structure Counted (r : Registry) (n : ℕ) : Prop where
  idCnt : r.idCnt = min n nCluster + 1
  assigned : ∀ id, id ∈ r.assigned ↔ 1 ≤ id ∧ id < r.idCnt
  ids : ∀ c ∈ r.live, 1 ≤ c.2 ∧ c.2 < r.idCnt
  distinct : (r.live.map Prod.snd).Nodup
  filled : ∀ id, 1 ≤ id → id < r.idCnt → ∃ ctx, r.table id = some ctx
  empty : ∀ id, id = 0 ∨ r.idCnt ≤ id → r.table id = none

section Histories

variable {r t : Registry} {n : ℕ} {e : Event} {es : List Event}

theorem counted_init : Counted clusterInit 0 := by
  constructor <;> simp [clusterInit] <;> omega

theorem Counted.alloc (h : Counted r n) (new : Addr) : Counted (allocCluster r new).1 (n+1) := by
  have hcnt := h.idCnt
  unfold allocCluster
  split
  · rename_i hfull
    exact ⟨by dsimp only; omega,h.assigned,h.ids,h.distinct,h.filled,h.empty⟩
  · rename_i hroom
    refine ⟨by dsimp only; omega,fun id => ?_,fun c hc => ?_,?_,fun id hlo hhi => ?_,fun id hid => ?_⟩
    · simp only [mem_append,mem_singleton,h.assigned]
      omega
    · rcases mem_append.mp hc with hc | hc
      · have := h.ids c hc
        exact ⟨this.1,by dsimp only; omega⟩
      · rw [mem_singleton] at hc
        subst hc
        exact ⟨by dsimp only; omega,by dsimp only; omega⟩
    · -- the counter is past every id that was handed out before
      have hnew : r.idCnt ∉ r.live.map Prod.snd := fun hmem => by
        obtain ⟨c,hc,hid⟩ := mem_map.mp hmem
        have := h.ids c hc
        omega
      rw [map_append,map_singleton]
      exact h.distinct.append (nodup_singleton _) (by simpa using hnew)
    · dsimp only at hhi ⊢
      by_cases hid : id = r.idCnt
      · exact ⟨new,by rw [hid,update_self]⟩
      · rw [update_of_ne hid]
        exact h.filled id hlo (by omega)
    · dsimp only at hid ⊢
      rw [update_of_ne (by omega)]
      exact h.empty id (by omega)

theorem Counted.dealloc (h : Counted r n) (ctx : Addr) : Counted (deallocCluster r ctx) n where
  idCnt := h.idCnt
  assigned := h.assigned
  ids c hc := h.ids c (mem_of_mem_filter hc)
  distinct := h.distinct.sublist (filter_sublist.map _)
  filled := h.filled
  empty := h.empty

theorem step_counted (h : Counted r n) (hstep : step r e = some t) :
    Counted t (n + if e.isAlloc then 1 else 0) := by
  cases e with
  | alloc new =>
    simp only [step,ite_none_left_eq_some,Option.some.injEq] at hstep
    exact hstep.2 ▸ h.alloc new
  | dealloc ctx =>
    simp only [step,ite_none_right_eq_some,Option.some.injEq] at hstep
    exact hstep.2 ▸ h.dealloc ctx

theorem run_counted (h : Counted r n) (hrun : Machine.run step r es = some t) :
    Counted t (n + es.countP Event.isAlloc) := by
  induction es generalizing r n with
  | nil =>
    cases hrun
    exact h
  | cons e es ih =>
    obtain ⟨u,hu,hrest⟩ := bind_eq_some_iff.mp hrun
    have := ih (step_counted h hu) hrest
    rwa [Nat.add_assoc,Nat.add_comm (ite _ _ _),← countP_cons] at this

/-- A cluster that was freed leaves its entry behind, and no later cluster has its id. -/
def Dangling (r : Registry) : Prop :=
  ∃ id < r.idCnt, ∃ ctx ∈ r.table id, (ctx,id) ∉ r.live

theorem Dangling.step (h : Dangling r) (hstep : step r e = some t) : Dangling t := by
  obtain ⟨id,hid,ctx,hctx,hgone⟩ := h
  cases e with
  | alloc new =>
    simp only [ClusterRegistry.step,ite_none_left_eq_some,Option.some.injEq] at hstep
    obtain ⟨-,rfl⟩ := hstep
    unfold allocCluster
    split
    · exact ⟨id,hid,ctx,hctx,hgone⟩
    · refine ⟨id,Nat.lt_succ_of_lt hid,ctx,?_,fun hmem => ?_⟩
      · dsimp only
        rwa [update_of_ne (by omega)]
      · rcases mem_append.mp hmem with hmem | hmem
        · exact hgone hmem
        · rw [mem_singleton,Prod.mk.injEq] at hmem
          omega
  | dealloc ctx' =>
    simp only [ClusterRegistry.step,ite_none_right_eq_some,Option.some.injEq] at hstep
    obtain ⟨-,rfl⟩ := hstep
    exact ⟨id,hid,ctx,hctx,fun hmem => hgone (mem_of_mem_filter hmem)⟩

/-- The entries of the array are the live clusters as long as none is freed. -/
def Current (r : Registry) : Prop := ∀ id, ∀ ctx ∈ r.table id, (ctx,id) ∈ r.live

theorem Current.alloc (h : Current r) (new : Addr) : Current (allocCluster r new).1 := by
  unfold allocCluster
  split
  · exact h
  · intro id ctx hctx
    dsimp only at hctx ⊢
    by_cases hid : id = r.idCnt
    · subst hid
      rw [update_self,mem_some_iff] at hctx
      rw [hctx]
      exact mem_append_right _ (mem_singleton_self _)
    · rw [update_of_ne hid] at hctx
      exact mem_append_left _ (h id ctx hctx)

theorem dealloc_dangling (h : Counted r n) (hcur : Current r) {ctx : Addr}
    (hctx : ctx ∈ r.live.map Prod.fst) : Dangling (deallocCluster r ctx) := by
  obtain ⟨c,hc,rfl⟩ := mem_map.mp hctx
  obtain ⟨hlo,hhi⟩ := h.ids c hc
  obtain ⟨ctx',hctx'⟩ := h.filled c.2 hlo hhi
  -- the entry is that of the freed cluster, since ids are distinct
  have hsame : (ctx',c.2) = c :=
    inj_on_of_nodup_map h.distinct (hcur c.2 ctx' hctx') hc rfl
  refine ⟨c.2,hhi,ctx',hctx',fun hmem => ?_⟩
  have hne := (mem_filter.mp hmem).2
  rw [← hsame] at hne
  simp at hne

theorem run_dangling (h : Dangling r) (hrun : Machine.run step r es = some t) : Dangling t :=
  Machine.run_keeps Dangling.step h hrun

/-- A history in which a cluster is freed ends with an entry that dangles. -/
theorem run_current (h : Counted r n) (hr : Current r) (hrun : Machine.run step r es = some t) :
    if ∀ e ∈ es, e.isAlloc = true then Current t else Dangling t := by
  induction es generalizing r n with
  | nil =>
    cases hrun
    rwa [if_pos (by simp)]
  | cons e es ih =>
    obtain ⟨u,hu,hrest⟩ := bind_eq_some_iff.mp hrun
    have hcounted := step_counted h hu
    cases e with
    | alloc new =>
      simp only [step,ite_none_left_eq_some,Option.some.injEq] at hu
      obtain ⟨-,rfl⟩ := hu
      have hend := ih hcounted (hr.alloc new) hrest
      split at hend
      · rename_i halloc
        have hall : ∀ e ∈ .alloc new::es, e.isAlloc = true := forall_mem_cons.mpr ⟨rfl,halloc⟩
        rwa [if_pos hall]
      · rename_i hdealloc
        rwa [if_neg fun hall => hdealloc (forall_mem_cons.mp hall).2]
    | dealloc ctx =>
      simp only [step,ite_none_right_eq_some,Option.some.injEq] at hu
      obtain ⟨hlive,rfl⟩ := hu
      rw [if_neg (by simp [Event.isAlloc])]
      exact run_dangling (dealloc_dangling h hr hlive) hrest

/-- The registry is sound exactly after histories that free no cluster and allocate fewer than
`nCluster`: id `nCluster` is no index of the array, and a freed cluster stays in the array. -/
theorem registry_sound_iff (hrun : Machine.run step clusterInit es = some t) :
    Sound t ↔ es.countP Event.isAlloc < nCluster ∧ ∀ e ∈ es, e.isAlloc = true := by
  have hcounted := run_counted counted_init hrun
  have hcurrent := run_current counted_init (fun _ _ h => nomatch h) hrun
  have hcnt := hcounted.idCnt
  rw [Nat.zero_add] at hcnt
  constructor
  · intro hs
    have hpos : 0 < nCluster := by decide
    have hbound : t.idCnt ≤ nCluster := by
      by_contra hlt
      have := hs.inside nCluster ((hcounted.assigned nCluster).mpr ⟨hpos,by omega⟩)
      omega
    refine ⟨by omega,?_⟩
    by_contra hdealloc
    rw [if_neg hdealloc] at hcurrent
    obtain ⟨id,hid,ctx,hctx,hgone⟩ := hcurrent
    exact hgone (hs.entries id (by omega) ctx hctx)
  · rintro ⟨hfew,halloc⟩
    rw [if_pos halloc] at hcurrent
    refine ⟨hcounted.distinct,fun id hid => ?_,fun id _ => hcurrent id⟩
    have := (hcounted.assigned id).mp hid
    omega

end Histories

/-- Two clusters are allocated. -/
theorem registry_sound_iff_two : ∃ t ∈ Machine.run step clusterInit [.alloc 1000,.alloc 2000],
    Sound t := by
  obtain ⟨t,ht⟩ : ∃ t, t ∈ Machine.run step clusterInit [.alloc 1000,.alloc 2000] := ⟨_,rfl⟩
  exact ⟨t,ht,(registry_sound_iff ht).mpr ⟨by decide,by decide⟩⟩

/-- The 128th cluster gets an id behind the array, and a cluster that was freed is found by
`csched`. -/
theorem registry_unsound :
    (∃ t ∈ Machine.run step clusterInit ((List.range 128).map .alloc),
      128 ∈ t.assigned ∧ nCluster = 128) ∧
    ∃ t ∈ Machine.run step clusterInit [.alloc 1000,.dealloc 1000],
      t.live = [] ∧ lookup t 1 = some 1000 := by
  constructor
  · decide +kernel
  · decide +kernel

end Vessel.ClusterRegistry
