import Mathlib.Data.List.Nodup
import Mathlib.Data.Nat.ModEq
import Mathlib.Tactic.Common
import Vessel.Machine
import Vessel.Parking

/-! Barriers (`sync.c`).  The call that completes a group takes all waiters off the barrier and then,
without the lock, makes them ready one by one; those that are ready may come back at once. -/
namespace Vessel

open Function
namespace Barrier

variable {ι : Type} [DecidableEq ι]

/-- A thread is outside of `barrier_wait`, parked in it, made ready and about to return, or has left
the section with these threads to make ready. -/
inductive Status (ι : Type) where
  | running
  | parked
  | returning
  | waking (ths : List ι)
deriving DecidableEq

/-- `barrier_t` and its threads.  The calls are numbered as they come to the section: `call` has the
last one of each thread, `groups` the calls released together and `returned` what calls returned. -/
structure Sys (ι : Type) where
  waiting : ℕ
  waiters : List ι
  status : ι → Status ι
  arrived : ℕ
  call : ι → Option ℕ
  groups : List (List ℕ)
  returned : List (ℕ × Bool)

def Sys.init : Sys ι := ⟨0,[],fun _ => .running,0,fun _ => none,[],[]⟩

def Sys.setStatus (s : Sys ι) (i : ι) (st : Status ι) : Sys ι :=
  { s with status := update s.status i st }

/-- The section of `barrier_wait`. -/
def Sys.barrierWait (count : ℕ) (s : Sys ι) (i : ι) : Sys ι :=
  let s := { s with arrived := s.arrived+1,call := update s.call i (some s.arrived) }
  if s.waiting+1 ≥ count then
    { s with
      waiting := 0
      waiters := []
      groups := s.groups++[(s.waiters++[i]).filterMap s.call] }.setStatus i (.waking s.waiters)
  else
    { s with waiting := s.waiting+1,waiters := s.waiters++[i] }.setStatus i .parked

/-- A call of thread `i` ends. -/
def Sys.ret (s : Sys ι) (i : ι) (r : Bool) : Sys ι :=
  { s with returned := s.returned++(s.call i).toList.map (·,r) }.setStatus i .running

inductive Event (ι : Type) where
  | wait (i : ι)
  | act (i : ι)

def step (count : ℕ) (s : Sys ι) : Event ι → Option (Sys ι)
  | .wait i => if s.status i = .running then some (s.barrierWait count i) else none
  | .act i =>
    match s.status i with
    | .waking (th::ths) => some ((s.setStatus i (.waking ths)).setStatus th .returning)
    | .waking [] => some (s.ret i true)
    | .returning => some (s.ret i false)
    | _ => none

def Status.wakes : Status ι → List ι
  | .waking ths => ths
  | _ => []

/-! ### Groups -/

variable {count : ℕ} {s t : Sys ι} {i j : ι} {waker : ι → Option ι}

/-- The waiters are the calls of the group that is not complete; every other call is one of a
complete group, and a call that wakes others is the last one of the group. -/
structure Grouped (count : ℕ) (s : Sys ι) (waker : ι → Option ι) : Prop where
  parking : Parking s.waiters (fun k => s.status k = .parked) (fun k => (s.status k).wakes) waker
  waiting : s.waiting = s.arrived%count
  waiters : s.waiters.map s.call =
    (List.range' (s.arrived/count*count) (s.arrived%count)).map some
  groups : s.groups = (List.range (s.arrived/count)).map fun g => List.range' (g*count) count
  call_lt : ∀ i n,s.call i = some n → n < s.arrived
  distinct : ∀ i j n,s.call i = some n → s.call j = some n → i = j
  started : ∀ i,s.call i = none → s.status i = .running
  early : ∀ i n,s.status i = .parked ∨ s.status i = .returning → s.call i = some n →
    n%count+1 ≠ count
  last : ∀ i ths n,s.status i = .waking ths → s.call i = some n → n%count+1 = count
  complete : ∀ i n,s.status i ≠ .parked → s.call i = some n → n/count < s.arrived/count
  woken : ∀ i j n m,i ∈ (s.status j).wakes → s.call i = some n → s.call j = some m →
    n/count = m/count
  returned : ∀ n r,(n,r) ∈ s.returned →
    n/count < s.arrived/count ∧ (r = true ↔ n%count+1 = count)
  nodup : (s.returned.map Prod.fst).Nodup
  fresh : ∀ i n,s.status i ≠ .running → s.call i = some n → n ∉ s.returned.map Prod.fst

omit [DecidableEq ι] in
theorem grouped_init : Grouped count (Sys.init : Sys ι) fun _ => none := by
  constructor
  case parking => exact Parking.empty (by simp [Sys.init]) (by simp [Sys.init,Status.wakes])
  all_goals simp [Sys.init]

theorem div_mod_succ_of_eq {n : ℕ} (hpos : 0 < count) (h : n%count+1 = count) :
    (n+1)/count = n/count+1 ∧ (n+1)%count = 0 := by
  have hn := Nat.div_add_mod n count
  refine (Nat.div_mod_unique hpos).mpr ⟨?_,hpos⟩
  rw [Nat.mul_succ]
  omega

theorem div_mod_succ_of_ne {n : ℕ} (hpos : 0 < count) (h : n%count+1 ≠ count) :
    (n+1)/count = n/count ∧ (n+1)%count = n%count+1 := by
  have hn := Nat.div_add_mod n count
  have hlt := Nat.mod_lt n hpos
  exact (Nat.div_mod_unique hpos).mpr ⟨by omega,by omega⟩

section Steps

variable (hpos : 0 < count) (h : Grouped count s waker)

include h

omit [DecidableEq ι] in
theorem Grouped.exists_call (hi : s.status i ≠ .running) : ∃ n,s.call i = some n :=
  Option.ne_none_iff_exists'.mp fun hnone => hi (h.started i hnone)

omit [DecidableEq ι] in
theorem not_mem_waiters (hi : s.status i = .running) : i ∉ s.waiters := fun hmem => by
  simpa [hi] using ((h.parking.waiting i).mp hmem).1

omit [DecidableEq ι] in
include hpos in
theorem waiter_group (hi : i ∈ s.waiters) {n : ℕ} (hn : s.call i = some n) :
    n/count = s.arrived/count := by
  have hmem : some n ∈ s.waiters.map s.call := List.mem_map.mpr ⟨i,hi,hn⟩
  rw [h.waiters,List.mem_map_of_injective (Option.some_injective _),List.mem_range'_1] at hmem
  have hlt := Nat.mod_lt s.arrived hpos
  refine ((Nat.div_mod_unique (c:=n-s.arrived/count*count) hpos).mpr ⟨?_,by omega⟩).1
  rw [Nat.mul_comm count]
  omega

omit [DecidableEq ι] in
theorem not_mem_wakes (hi : s.status i ≠ .parked) (j : ι) : i ∉ (s.status j).wakes := fun hmem =>
  hi ((h.parking.woken i j).mp hmem).1

theorem calls_concat (hi : s.status i = .running) :
    (s.waiters++[i]).map (update s.call i (some s.arrived)) =
      (List.range' (s.arrived/count*count) (s.arrived%count+1)).map some := by
  have hnot := not_mem_waiters h hi
  have hsame : s.waiters.map (update s.call i (some s.arrived)) = s.waiters.map s.call :=
    List.map_congr_left fun k hk => update_of_ne (ne_of_mem_of_not_mem hk hnot) _ _
  rw [List.map_append,hsame,h.waiters,List.range'_1_concat,List.map_append,Nat.mul_comm,
    Nat.div_add_mod]
  simp

include hpos

theorem grouped_park (hi : s.status i = .running) (hne : s.arrived%count+1 ≠ count) :
    Grouped count ({ s with
      arrived := s.arrived+1
      call := update s.call i (some s.arrived)
      waiting := s.waiting+1
      waiters := s.waiters++[i] }.setStatus i .parked) (update waker i none) := by
  obtain ⟨hdiv,hmod⟩ := div_mod_succ_of_ne hpos hne
  have hcalls := calls_concat h hi
  have hnew := not_mem_wakes h (i:=i) (by simp [hi])
  unfold Sys.setStatus
  constructor
  case parking =>
    refine h.parking.park (by simp [hi]) (List.perm_append_singleton _ _) (fun k => ?_) fun k => ?_
    · by_cases hk : k = i <;> simp [hk]
    · by_cases hk : k = i <;> simp [hk,hi,Status.wakes]
  case waiting => simp only [h.waiting,hmod]
  case waiters => simpa only [hdiv,hmod] using hcalls
  case groups => simpa only [hdiv] using h.groups
  all_goals grind -ring -linarith [Grouped,Status.wakes]

theorem grouped_release (hi : s.status i = .running) (heq : s.arrived%count+1 = count) :
    Grouped count ({ s with
      arrived := s.arrived+1
      call := update s.call i (some s.arrived)
      waiting := 0
      waiters := []
      groups := s.groups++[(s.waiters++[i]).filterMap
        (update s.call i (some s.arrived))] }.setStatus i (.waking s.waiters))
      fun k => if k ∈ s.waiters then some i else waker k := by
  obtain ⟨hdiv,hmod⟩ := div_mod_succ_of_eq hpos heq
  have hcalls := calls_concat h hi
  have hgroup : ∀ k ∈ s.waiters,∀ n,s.call k = some n → n/count = s.arrived/count :=
    fun k hk n hn => waiter_group hpos h hk hn
  have hnot := not_mem_waiters h hi
  have hnew := not_mem_wakes h (i:=i) (by simp [hi])
  unfold Sys.setStatus
  constructor
  case parking =>
    refine h.parking.take (by simp [hi,Status.wakes]) (by simp) (fun k => ?_) fun k => ?_
    · by_cases hk : k = i <;> simp [hk,hi]
    · by_cases hk : k = i <;> simp [hk,Status.wakes]
  case waiting => simp [hmod]
  case waiters => simp [hmod]
  case groups =>
    have hcalled : (s.waiters++[i]).filterMap (update s.call i (some s.arrived)) =
        List.range' (s.arrived/count*count) count := by
      rw [← id_comp (update _ _ _),← List.filterMap_map,hcalls,heq]
      simp
    simp only [hcalled,hdiv,List.range_succ,List.map_append,h.groups,List.map_singleton]
  all_goals grind -ring -linarith [Grouped,Status.wakes]

omit hpos

theorem grouped_ready {th : ι} {ths : List ι} (hi : s.status i = .waking (th::ths)) :
    Grouped count ((s.setStatus i (.waking ths)).setStatus th .returning) waker := by
  have hth : s.status th = .parked := ((h.parking.woken th i).mp (by simp [hi,Status.wakes])).1
  have hne : th ≠ i := by
    rintro rfl
    simp [hi] at hth
  obtain ⟨m,hm⟩ := h.exists_call (i:=i) (by simp [hi])
  have hgroup := fun n hn => h.woken th i n m (by simp [hi,Status.wakes]) hn hm
  have hdone := h.complete i m (by simp [hi]) hm
  unfold Sys.setStatus
  constructor
  case parking =>
    have hwakes : (s.status i).wakes = th::ths := by simp [hi,Status.wakes]
    refine h.parking.ready hwakes (fun k => ?_) fun k => ?_
    · by_cases hk : k = th
      · simp [hk]
      · by_cases hki : k = i <;> simp [hk,hki,hi,hne.symm]
    · by_cases hk : k = th
      · simp [hk,hth,hne,Status.wakes]
      · by_cases hki : k = i <;> simp [hk,hki,hne.symm,Status.wakes]
  case waiting => exact h.waiting
  case waiters => exact h.waiters
  case groups => exact h.groups
  all_goals grind -ring -linarith [Grouped,Status.wakes]

theorem grouped_ret {r : Bool}
    (hi : s.status i = .waking [] ∧ r = true ∨ s.status i = .returning ∧ r = false) :
    Grouped count (s.ret i r) waker := by
  obtain ⟨n,hn⟩ := h.exists_call (i:=i) (by grind -ring -linarith)
  have hret : s.ret i r =
      { s with returned := s.returned++[(n,r)] }.setStatus i .running := by simp [Sys.ret,hn]
  rw [hret]
  unfold Sys.setStatus
  constructor
  case parking =>
    refine h.parking.congr (fun k => ?_) fun k => ?_
    · by_cases hk : k = i
      · rcases hi with ⟨hi,-⟩ | ⟨hi,-⟩ <;> simp [hk,hi]
      · simp [hk]
    · by_cases hk : k = i
      · rcases hi with ⟨hi,-⟩ | ⟨hi,-⟩ <;> simp [hk,hi,Status.wakes]
      · simp [hk]
  case waiting => exact h.waiting
  case waiters => exact h.waiters
  case groups => exact h.groups
  all_goals grind -ring -linarith [Grouped,Status.wakes]

theorem grouped_wait (hpos : 0 < count) (hi : s.status i = .running) :
    ∃ w,Grouped count (s.barrierWait count i) w := by
  have hlt := Nat.mod_lt s.arrived hpos
  by_cases hlast : s.arrived%count+1 = count
  · rw [Sys.barrierWait,if_pos (by simp only [h.waiting]; omega)]
    exact ⟨_,grouped_release hpos h hi hlast⟩
  · rw [Sys.barrierWait,if_neg (by simp only [h.waiting]; omega)]
    exact ⟨_,grouped_park hpos h hi hlast⟩

end Steps

theorem grouped_step (hpos : 0 < count) {e : Event ι} (h : ∃ w,Grouped count s w)
    (ht : step count s e = some t) : ∃ w,Grouped count t w := by
  obtain ⟨w,h⟩ := h
  cases e with
  | wait i =>
    simp only [step,Option.ite_none_right_eq_some,Option.some.injEq] at ht
    obtain ⟨hi,rfl⟩ := ht
    exact grouped_wait h hpos hi
  | act i =>
    simp only [step] at ht
    split at ht
    · rename_i hi
      exact ⟨w,Option.some.inj ht ▸ grouped_ready h hi⟩
    · rename_i hi
      exact ⟨w,Option.some.inj ht ▸ grouped_ret h (Or.inl ⟨hi,rfl⟩)⟩
    · rename_i hi
      exact ⟨w,Option.some.inj ht ▸ grouped_ret h (Or.inr ⟨hi,rfl⟩)⟩
    · cases ht

/-- Calls are released in groups of `count` consecutive arrivals.  A call returns once, when its
group is complete, and only the last arrival of a group returns true; a call that comes back is one
of a later group than before.  Nobody is forgotten: a parked call waits for its group, or the last
call of its group is about to make it ready. -/
theorem barrier_releases_groups (hpos : 0 < count) (es : List (Event ι))
    (ht : Machine.run (step count) .init es = some t) :
    t.groups = (List.range (t.arrived/count)).map (fun g => List.range' (g*count) count) ∧
    (t.returned.map Prod.fst).Nodup ∧
    (∀ n r,(n,r) ∈ t.returned →
      (n/count+1)*count ≤ t.arrived ∧ (r = true ↔ n%count+1 = count)) ∧
    (∀ i u n,step count t (.wait i) = some u → t.call i = some n →
      ∃ m,u.call i = some m ∧ n/count < m/count) ∧
    ∀ i,t.status i = .parked → i ∈ t.waiters ∨ ∃ j ths n m,t.status j = .waking ths ∧ i ∈ ths ∧
      t.call i = some n ∧ t.call j = some m ∧ n/count = m/count ∧ m%count+1 = count := by
  obtain ⟨w,h⟩ : ∃ w,Grouped count t w :=
    Machine.run_keeps (P:=fun s => ∃ w,Grouped count s w) (grouped_step hpos) ⟨_,grouped_init⟩ ht
  refine ⟨h.groups,h.nodup,fun n r hr => ?_,fun i u n hu hn => ?_,fun i hi => ?_⟩
  · obtain ⟨hlt,hiff⟩ := h.returned n r hr
    have hle : (n/count+1)*count ≤ t.arrived/count*count := Nat.mul_le_mul_right _ hlt
    exact ⟨hle.trans (Nat.div_mul_le_self _ _),hiff⟩
  · simp only [step,Option.ite_none_right_eq_some,Option.some.injEq] at hu
    obtain ⟨hi,rfl⟩ := hu
    refine ⟨t.arrived,?_,h.complete i n (by simp [hi]) hn⟩
    simp only [Sys.barrierWait,Sys.setStatus]
    split_ifs <;> exact update_self ..
  · rcases h.parking.kept hi with hwait | ⟨j,hj⟩
    · exact Or.inl hwait
    · right
      obtain ⟨ths,hths⟩ : ∃ ths,t.status j = .waking ths := by
        cases hst : t.status j <;> simp [hst,Status.wakes] at hj ⊢
      obtain ⟨n,hn⟩ := h.exists_call (i:=i) (by simp [hi])
      obtain ⟨m,hm⟩ := h.exists_call (i:=j) (by simp [hths])
      exact ⟨j,ths,n,m,hths,by simpa [hths,Status.wakes] using hj,hn,hm,h.woken i j n m hj hn hm,
        h.last j ths m hths hm⟩

/-- Of two threads the first comes back before the second has returned. -/
theorem barrier_releases_groups_two :
    ∃ t ∈ Machine.run (step 2) (Sys.init : Sys (Fin 2))
      [.wait 0,.wait 1,.act 1,.act 0,.wait 0,.act 1,.wait 1],
      t.returned = [(0,false),(1,true)] ∧ t.groups = [[0,1],[2,3]] := by
  obtain ⟨t,ht,hr,ha⟩ : ∃ t ∈ Machine.run (step 2) (Sys.init : Sys (Fin 2))
      [.wait 0,.wait 1,.act 1,.act 0,.wait 0,.act 1,.wait 1],
      t.returned = [(0,false),(1,true)] ∧ t.arrived = 4 := by decide +kernel
  refine ⟨t,ht,hr,?_⟩
  rw [(barrier_releases_groups (by decide) _ ht).1,ha]
  rfl

end Barrier
end Vessel
