import Mathlib.Tactic.SplitIfs
import Vessel.Timer

/-! What the steps of the timers keep, as long as no `timer_cancel` comes between a softirq's
section and its write of `armed`. -/
namespace Vessel
namespace Timer

open IndexedHeap Function Option

variable {K : Type} [DecidableEq K] {s s' : Sys K}

theorem siftUp_rearranged {t : Table TimerIdx ℕ} {i n : ℕ} (hi : i < n) :
    Rearranged TimerIdx.e n t (siftUp t i) := IndexedHeap.siftUp_rearranged hi

theorem siftDown_rearranged {t : Table TimerIdx ℕ} {i n : ℕ} (hi : i < n) :
    Rearranged TimerIdx.e n t (siftDown t i n) := IndexedHeap.siftDown_rearranged hi

namespace Sys

omit [DecidableEq K] in
theorem taking_eq_some {k : K} {e : ℕ} :
    s.taking k = some e ↔ ∃ x, s.softirq k = some (.taken x) ∧ x.e = e := by
  rw [taking]
  split <;> simp_all

theorem inHeap_withTable {k k' : K} {n : ℕ} {t : Table TimerIdx ℕ} {x : TimerIdx} :
    (s.withTable k n t).InHeap k' x ↔ if k' = k then t.Holds n x else s.InHeap k' x := by
  by_cases hk : k' = k
  · subst hk
    simp [InHeap,table,withTable,Table.Holds]
  · simp [InHeap,table,withTable,Table.Holds,hk]

/-- The heaps, as the entries record them: the slots of every heap are indexed, and its entries
name the kthread. -/
structure Heaps (s : Sys K) : Prop where
  indexed : ∀ k, Indexed TimerIdx.e (s.timern k) (s.table k)
  localk : ∀ k x, s.InHeap k x → s.localk x.e = some k

/-- What a section may write into the heap of `k`: the other heaps keep their indices. -/
theorem Heaps.indexed_withTable {k : K} {n : ℕ} {t : Table TimerIdx ℕ} (h : s.Heaps)
    (ht : Indexed TimerIdx.e n t)
    (hothers : ∀ k' x, k' ≠ k → s.InHeap k' x → t.idx x.e = s.idx x.e) (k' : K) :
    Indexed TimerIdx.e ((s.withTable k n t).timern k') ((s.withTable k n t).table k') := by
  by_cases hk : k' = k
  · subst hk
    simpa [withTable,table] using ht
  · have hn : (s.withTable k n t).timern k' = s.timern k' := update_of_ne hk ..
    have hs : (s.withTable k n t).timers k' = s.timers k' := update_of_ne hk ..
    intro j hj
    simp only [table,hn,hs] at hj ⊢
    exact (hothers k' _ hk ⟨j,hj,rfl⟩).trans (h.indexed k' j hj)

omit [DecidableEq K] in
theorem Heaps.apart {k k' : K} {x y : TimerIdx} (h : s.Heaps) (hk : k' ≠ k) (hx : s.InHeap k' x)
    (hy : s.InHeap k y) : y.e ≠ x.e := by
  intro heq
  have hlocal := h.localk k y hy
  rw [heq,h.localk k' x hx] at hlocal
  exact hk (some.inj hlocal)

theorem Heaps.removed {k : K} {i n : ℕ} {x : TimerIdx} {t : Table TimerIdx ℕ} (h : s.Heaps)
    (hn : s.timern k = n+1) (hi : i < n) (hx : s.timers k i = x)
    (hre : Rearranged TimerIdx.e n ((s.table k).put TimerIdx.e i (s.timers k n)) t) :
    (∀ k', Indexed TimerIdx.e ((s.withTable k n t).timern k') ((s.withTable k n t).table k')) ∧
      ∀ k' y, (s.withTable k n t).InHeap k' y ↔ s.InHeap k' y ∧ y.e ≠ x.e := by
  have hidx := h.indexed k
  rw [hn] at hidx
  have hheap : ∀ y, s.InHeap k y ↔ (s.table k).Holds (n+1) y := fun y => by rw [InHeap,hn]
  have hfill : ∀ y, t.Holds n y ↔ s.InHeap k y ∧ y.e ≠ x.e := fun y => by
    rw [hre.holds,hheap,← hx]
    exact hidx.holds_fill hi
  refine ⟨h.indexed_withTable (hre.indexed hidx.fill) fun k' y hk hy => ?_,fun k' y => ?_⟩
  · have hlast : s.InHeap k (s.timers k n) := (hheap _).mpr ⟨n,by omega,rfl⟩
    refine (hre.others y.e fun z hz => ?_).trans (Table.put_idx_of_ne (h.apart hk hy hlast))
    exact h.apart hk hy ((hfill z).mp ((hre.holds z).mpr hz)).1
  · refine inHeap_withTable.trans ?_
    split
    · next hk => rw [hk,hfill]
    · next hk =>
      have hxk : s.InHeap k x := (hheap _).mpr ⟨i,by omega,hx⟩
      exact ⟨fun hy => ⟨hy,(h.apart hk hy hxk).symm⟩,And.left⟩

theorem Heaps.removed_last {k : K} {n : ℕ} {x : TimerIdx} (h : s.Heaps) (hn : s.timern k = n+1)
    (hx : s.timers k n = x) :
    (∀ k', Indexed TimerIdx.e ((s.withTable k n (s.table k)).timern k')
      ((s.withTable k n (s.table k)).table k')) ∧
      ∀ k' y, (s.withTable k n (s.table k)).InHeap k' y ↔ s.InHeap k' y ∧ y.e ≠ x.e := by
  have hidx := h.indexed k
  rw [hn] at hidx
  have hheap : ∀ y, s.InHeap k y ↔ (s.table k).Holds (n+1) y := fun y => by rw [InHeap,hn]
  refine ⟨h.indexed_withTable hidx.pop fun _ _ _ _ => rfl,fun k' y => ?_⟩
  refine inHeap_withTable.trans ?_
  split
  · next hk =>
    rw [hk,hheap,← hx]
    exact hidx.holds_pop
  · next hk =>
    have hxk : s.InHeap k x := (hheap _).mpr ⟨n,by omega,hx⟩
    exact ⟨fun hy => ⟨hy,(h.apart hk hy hxk).symm⟩,And.left⟩

/-- A section that armed `x` on the kthread `k`. -/
structure Started (s s' : Sys K) (k : K) (x : TimerIdx) : Prop where
  free : s.armed x.e = false
  arming : x.arming = s.armings x.e
  indexed : ∀ k', Indexed TimerIdx.e (s'.timern k') (s'.table k')
  heap : ∀ k' y, s'.InHeap k' y ↔ s.InHeap k' y ∨ (k' = k ∧ y = x)
  armed : ∀ e, s'.armed e = if e = x.e then true else s.armed e
  localk : ∀ e, s'.localk e = if e = x.e then some k else s.localk e
  armings : ∀ e, s'.armings e = if e = x.e then s.armings e+1 else s.armings e
  softirq : ∀ k', s'.softirq k' = s.softirq k'
  log : s'.log = s.log

/-- A section that took the timer of `e` out of its heap and returned true. -/
structure Cancelled (s s' : Sys K) (e : ℕ) : Prop where
  found : ∃ k x, s.InHeap k x ∧ x.e = e
  indexed : ∀ k, Indexed TimerIdx.e (s'.timern k) (s'.table k)
  heap : ∀ k x, s'.InHeap k x ↔ s.InHeap k x ∧ x.e ≠ e
  armed : ∀ e', s'.armed e' = if e' = e then false else s.armed e'
  localk : ∀ e', s'.localk e' = s.localk e'
  armings : ∀ e', s'.armings e' = s.armings e'
  softirq : ∀ k', s'.softirq k' = s.softirq k'
  log : s'.log = .cancelled e (s.armings e-1)::s.log

/-- A section in which the softirq of `k` took `x` out of its heap. -/
structure Took (s s' : Sys K) (k : K) (x : TimerIdx) : Prop where
  idle : s.softirq k = none
  found : s.InHeap k x
  indexed : ∀ k', Indexed TimerIdx.e (s'.timern k') (s'.table k')
  heap : ∀ k' y, s'.InHeap k' y ↔ s.InHeap k' y ∧ y.e ≠ x.e
  armed : ∀ e', s'.armed e' = s.armed e'
  localk : ∀ e', s'.localk e' = s.localk e'
  armings : ∀ e', s'.armings e' = s.armings e'
  softirq : ∀ k', s'.softirq k' = if k' = k then some (.taken x) else s.softirq k'
  log : s'.log = s.log

theorem timerStartLocked_spec {k : K} {e deadlineUs : ℕ} (h : s.Heaps)
    (hfree : ∀ k x, s.InHeap k x → s.armed x.e = true)
    (hs : s.timerStartLocked k e deadlineUs = some s') :
    Started s s' k ⟨deadlineUs,e,s.armings e⟩ := by
  rw [timerStartLocked] at hs
  split at hs
  · contradiction
  split at hs
  · contradiction
  rename_i harmed hroom
  obtain rfl := some.inj hs
  have hnew : ∀ k' y, s.InHeap k' y → y.e ≠ e := fun k' y hy heq =>
    harmed (heq ▸ hfree k' y hy)
  have hre : Rearranged TimerIdx.e (s.timern k+1)
      ((s.table k).put TimerIdx.e (s.timern k) ⟨deadlineUs,e,s.armings e⟩) _ :=
    siftUp_rearranged (Nat.lt_succ_self _)
  refine ⟨eq_false_of_ne_true harmed,rfl,fun k' => ?_,fun k' y => ?_,
    fun _ => update_apply ..,fun _ => update_apply ..,fun e' => ?_,fun _ => rfl,rfl⟩
  · refine h.indexed_withTable (hre.indexed ((h.indexed k).push (hnew k))) (fun k' x hk hx => ?_) k'
    refine (hre.others x.e fun y hy heq => ?_).trans (Table.put_idx_of_ne (hnew k' x hx).symm)
    rcases holds_push.mp hy with hy | rfl
    · exact h.apart hk hx hy heq
    · exact hnew k' x hx heq.symm
  · refine inHeap_withTable.trans ?_
    split
    · next hk => simp [hre.holds,holds_push,InHeap,hk]
    · next hk => simp [hk]
  · refine (update_apply ..).trans ?_
    split
    · next he => rw [he]
    · rfl

/-- The heap of `k` with slot `i` filled from slot `last` and sifted there, as a cancel leaves it. -/
def without (s : Sys K) (k : K) (i last : ℕ) : Table TimerIdx ℕ :=
  if i = last then s.table k
  else siftDown (siftUp ((s.table k).put TimerIdx.e i (s.timers k last)) i) i last

omit [DecidableEq K] in
/-- The entry that is cancelled is in no slot once its own is filled, so its index stays. -/
theorem Heaps.idx_fill {k : K} {i last : ℕ} {x : TimerIdx} (h : s.Heaps) (hn : s.timern k = last+1)
    (hi : i < last) (hx : s.timers k i = x) :
    ((s.table k).put TimerIdx.e i (s.timers k last)).idx x.e = i ∧
      (siftUp ((s.table k).put TimerIdx.e i (s.timers k last)) i).idx x.e = i := by
  subst hx
  have hidx := h.indexed k
  rw [hn] at hidx
  have hne : (s.timers k last).e ≠ (s.timers k i).e := fun heq =>
    hi.ne' (hidx.inj (by omega) (by omega) heq)
  have hput : ((s.table k).put TimerIdx.e i (s.timers k last)).idx (s.timers k i).e = i :=
    (Table.put_idx_of_ne hne).trans (hidx i (by omega))
  refine ⟨hput,Eq.trans ?_ hput⟩
  exact (siftUp_rearranged hi).others _ fun y hy => ((hidx.holds_fill hi).mp hy).2

/-- A cancel leaves all as it is, or takes the timer out of the slot that its entry records. -/
theorem timerCancel_cases {k : K} {e : ℕ} {r : Option Bool} (h : s.Heaps)
    (hfound : s.armed e = true → ∃ k x, s.InHeap k x ∧ x.e = e)
    (hs : s.timerCancel k e = some (s',r)) :
    (r ≠ some true ∧ s' = s) ∨ (r = some true ∧ ∃ i last, s.timern k = last+1 ∧ i ≤ last ∧
      (s.timers k i).e = e ∧ s' = withTable { s with
        armed := update s.armed e false
        log := .cancelled e (s.armings e-1)::s.log } k last (s.without k i last)) := by
  rw [timerCancel] at hs
  split at hs
  · obtain ⟨rfl,rfl⟩ := Prod.mk.inj (some.inj hs)
    exact Or.inl ⟨by simp,rfl⟩
  next hlocal =>
    split at hs
    · obtain ⟨rfl,rfl⟩ := Prod.mk.inj (some.inj hs)
      exact Or.inl ⟨by simp,rfl⟩
    next harmed =>
      obtain ⟨k',x,hx,rfl⟩ := hfound (eq_true_of_ne_false harmed)
      obtain rfl : k' = k := by
        have := h.localk k' x hx
        rw [not_not.mp hlocal] at this
        exact (some.inj this).symm
      obtain ⟨i,hi,hslot⟩ := hx
      have hidx : s.idx x.e = i := hslot ▸ h.indexed k' i hi
      split at hs
      · contradiction
      next last hn =>
        rw [hn] at hi
        dsimp only at hs
        refine Or.inr ?_
        split at hs
        · next hlast =>
          obtain ⟨rfl,rfl⟩ := Prod.mk.inj (some.inj hs)
          refine ⟨rfl,i,last,hn,by omega,congrArg TimerIdx.e hslot,?_⟩
          rw [without,if_pos (hidx.symm.trans hlast)]
        · next hlast =>
          obtain ⟨rfl,rfl⟩ := Prod.mk.inj (some.inj hs)
          obtain ⟨hput,hkeep⟩ := h.idx_fill hn (i:=i) (by omega) hslot
          refine ⟨rfl,i,last,hn,by omega,congrArg TimerIdx.e hslot,?_⟩
          rw [hidx] at hlast
          rw [hidx,hput,hkeep,without,if_neg hlast]

theorem timerCancel_spec {k : K} {e : ℕ} {r : Option Bool} (h : s.Heaps)
    (hfound : s.armed e = true → ∃ k x, s.InHeap k x ∧ x.e = e)
    (hs : s.timerCancel k e = some (s',r)) :
    (r ≠ some true ∧ s' = s) ∨ (r = some true ∧ Cancelled s s' e) := by
  refine (timerCancel_cases h hfound hs).imp_right ?_
  rintro ⟨rfl,i,last,hn,hi,rfl,rfl⟩
  have hin : s.InHeap k (s.timers k i) := ⟨i,by omega,rfl⟩
  refine ⟨rfl,?_⟩
  rcases Nat.lt_or_eq_of_le hi with hlt | rfl
  · obtain ⟨hind,hheap⟩ := h.removed hn hlt rfl
      ((siftUp_rearranged hlt).trans (siftDown_rearranged hlt))
    rw [without,if_neg hlt.ne]
    exact ⟨⟨k,_,hin,rfl⟩,hind,hheap,fun _ => update_apply ..,fun _ => rfl,fun _ => rfl,
      fun _ => rfl,rfl⟩
  · obtain ⟨hind,hheap⟩ := h.removed_last hn rfl
    rw [without,if_pos rfl]
    exact ⟨⟨k,_,hin,rfl⟩,hind,hheap,fun _ => update_apply ..,fun _ => rfl,fun _ => rfl,
      fun _ => rfl,rfl⟩

theorem softirqTake_spec {k : K} {nowUs : ℕ} (h : s.Heaps) (hs : s.softirqTake k nowUs = some s') :
    ∃ x, Took s s' k x := by
  rw [softirqTake] at hs
  split at hs
  · next hcond =>
    obtain ⟨hidle,hpos,-⟩ := hcond
    obtain ⟨i,hn⟩ := Nat.exists_eq_add_one.mpr hpos
    have hin : s.InHeap k (s.timers k 0) := ⟨0,hpos,rfl⟩
    dsimp only at hs
    rw [hn,Nat.add_sub_cancel] at hs
    split at hs
    · next hi =>
      obtain rfl := some.inj hs
      obtain ⟨hind,hheap⟩ := h.removed hn hi rfl (siftDown_rearranged hi)
      exact ⟨_,hidle,hin,hind,hheap,fun _ => rfl,fun _ => rfl,fun _ => rfl,
        fun _ => update_apply ..,rfl⟩
    · next hi =>
      obtain rfl := some.inj hs
      obtain rfl : i = 0 := by omega
      obtain ⟨hind,hheap⟩ := h.removed_last hn rfl
      exact ⟨_,hidle,hin,hind,hheap,fun _ => rfl,fun _ => rfl,fun _ => rfl,
        fun _ => update_apply ..,rfl⟩
  · contradiction
/-- The softirq of `k` cleared `armed` of the entry it took. -/
structure Cleared (s s' : Sys K) (k : K) (x : TimerIdx) : Prop where
  taken : s.softirq k = some (.taken x)
  indexed : ∀ k', Indexed TimerIdx.e (s'.timern k') (s'.table k')
  heap : ∀ k' y, s'.InHeap k' y ↔ s.InHeap k' y
  armed : ∀ e, s'.armed e = if e = x.e then false else s.armed e
  localk : ∀ e, s'.localk e = s.localk e
  armings : ∀ e, s'.armings e = s.armings e
  softirq : ∀ k', s'.softirq k' = if k' = k then some (.cleared x) else s.softirq k'
  log : s'.log = s.log

/-- The softirq of `k` called the handler. -/
structure Called (s s' : Sys K) (k : K) (x : TimerIdx) : Prop where
  cleared : s.softirq k = some (.cleared x)
  indexed : ∀ k', Indexed TimerIdx.e (s'.timern k') (s'.table k')
  heap : ∀ k' y, s'.InHeap k' y ↔ s.InHeap k' y
  armed : ∀ e, s'.armed e = s.armed e
  localk : ∀ e, s'.localk e = s.localk e
  armings : ∀ e, s'.armings e = s.armings e
  softirq : ∀ k', s'.softirq k' = if k' = k then none else s.softirq k'
  log : s'.log = .called x.e x.arming::s.log

theorem softirqClear_spec {k : K} (h : s.Heaps) (hs : s.softirqClear k = some s') :
    ∃ x, Cleared s s' k x := by
  rw [softirqClear] at hs
  split at hs
  · next x hx =>
    obtain rfl := some.inj hs
    exact ⟨x,hx,h.indexed,fun _ _ => Iff.rfl,fun _ => update_apply ..,fun _ => rfl,
      fun _ => rfl,fun _ => update_apply ..,rfl⟩
  · contradiction

theorem softirqCall_spec {k : K} (h : s.Heaps) (hs : s.softirqCall k = some s') :
    ∃ x, Called s s' k x := by
  rw [softirqCall] at hs
  split at hs
  · next x hx =>
    obtain rfl := some.inj hs
    exact ⟨x,hx,h.indexed,fun _ _ => Iff.rfl,fun _ => rfl,fun _ => rfl,fun _ => rfl,
      fun _ => update_apply ..,rfl⟩
  · contradiction

/-- Where an arming is. -/
inductive Place (K : Type) where
  | fresh
  | heap (k : K) (x : TimerIdx)
  | taken (k : K) (x : TimerIdx)
  | cleared (k : K) (x : TimerIdx)
  | done

/-- The entry of an arming that is here is armed. -/
def Place.armed : Place K → Bool
  | .heap .. | .taken .. => true
  | _ => false

/-- The heaps, the hands of the softirqs, `armed` and the log as functions of the place of each
arming. -/
structure Located (s : Sys K) (loc : ℕ → ℕ → Place K) : Prop where
  indexed : ∀ k, Indexed TimerIdx.e (s.timern k) (s.table k)
  heap : ∀ k x, s.InHeap k x ↔ loc x.e x.arming = .heap k x
  taken : ∀ k x, s.softirq k = some (.taken x) ↔ loc x.e x.arming = .taken k x
  cleared : ∀ k x, s.softirq k = some (.cleared x) ↔ loc x.e x.arming = .cleared k x
  own : ∀ e n k x, loc e n = .heap k x ∨ loc e n = .taken k x ∨ loc e n = .cleared k x →
    x.e = e ∧ x.arming = n
  localk : ∀ e n k x, loc e n = .heap k x → s.localk e = some k
  fresh : ∀ e n, loc e n = .fresh ↔ s.armings e ≤ n
  last : ∀ e n, s.armings e = n+1 → s.armed e = (loc e n).armed
  unarmed : ∀ e, s.armings e = 0 → s.armed e = false
  old : ∀ e n, n+1 < s.armings e → (loc e n).armed = false
  log : ∀ e n, s.resolutions e n = 0 ∧ loc e n ≠ .done ∨ s.resolutions e n = 1 ∧ loc e n = .done

/-- The places after one arming has changed its place. -/
def moved (loc : ℕ → ℕ → Place K) (e n : ℕ) (p : Place K) (e' n' : ℕ) : Place K :=
  if e' = e ∧ n' = n then p else loc e' n'

omit [DecidableEq K] in
theorem resolutions_eq (hlog : s'.log = s.log) (e n : ℕ) :
    s'.resolutions e n = s.resolutions e n := by
  rw [resolutions,hlog,resolutions]

omit [DecidableEq K] in
theorem resolutions_cons {r : Resolution} (hlog : s'.log = r::s.log) (e n : ℕ) :
    s'.resolutions e n = s.resolutions e n+if r.entry = e ∧ r.arming = n then 1 else 0 := by
  simp [resolutions,hlog,List.countP_cons]

section Places

variable {loc : ℕ → ℕ → Place K} {k : K} {x : TimerIdx} {e : ℕ}

omit [DecidableEq K] in
theorem located_init : (init : Sys K).Located fun _ _ => .fresh where
  indexed _ _ hj := absurd hj (Nat.not_lt_zero _)
  heap _ _ := by simp [InHeap,Table.Holds,init]
  taken := by simp [init]
  cleared := by simp [init]
  own := by simp
  localk := by simp
  fresh := by simp [init]
  last := by simp [init]
  unarmed := by simp [init]
  old := by simp [init]
  log := by simp [resolutions,init]

omit [DecidableEq K] in
theorem Located.heaps (h : s.Located loc) : s.Heaps :=
  ⟨h.indexed,fun k x hx => h.localk _ _ k x ((h.heap k x).mp hx)⟩

omit [DecidableEq K] in
theorem Located.held (h : s.Located loc) (hx : s.InHeap k x) :
    s.armed x.e = true ∧ s.armings x.e = x.arming+1 := by
  have hplace := (h.heap k x).mp hx
  have hlast : s.armings x.e = x.arming+1 := by
    have := h.fresh x.e x.arming
    have := h.old x.e x.arming
    grind [Place.armed]
  exact ⟨by rw [h.last _ _ hlast,hplace]; rfl,hlast⟩

omit [DecidableEq K] in
theorem Located.started (h : s.Located loc) (hs : Started s s' k x) :
    s'.Located (moved loc x.e x.arming (.heap k x)) := by
  have hres := resolutions_eq hs.log
  have hx : loc x.e x.arming = .fresh := (h.fresh _ _).mpr hs.arming.ge
  have hprev : ∀ n, s.armings x.e = n+1 → (loc x.e n).armed = false := fun n hn =>
    (h.last x.e n hn).symm.trans hs.free
  obtain ⟨-,hheap,htaken,hcleared,hown,hlocal,hfresh,hlast,hunarmed,hold,hlog⟩ := h
  obtain ⟨hfree,harming,hindexed,hheap',harmed,hlocal',harmings,hsoft,-⟩ := hs
  refine ⟨hindexed,?_,?_,?_,?_,?_,?_,?_,?_,?_,?_⟩ <;> grind [moved,Place.armed]

omit [DecidableEq K] in
theorem Located.cancelled (h : s.Located loc) (hs : Cancelled s s' e) :
    s'.Located (moved loc e (s.armings e-1) .done) := by
  have hres := resolutions_cons hs.log
  obtain ⟨⟨k,x,hx,rfl⟩,hindexed,hheap',harmed,hlocal',harmings,hsoft,-⟩ := hs
  have hplace := (h.heap k x).mp hx
  have hnum := (h.held hx).2
  obtain ⟨-,hheap,htaken,hcleared,hown,hlocal,hfresh,hlast,hunarmed,hold,hlog⟩ := h
  refine ⟨hindexed,?_,?_,?_,?_,?_,?_,?_,?_,?_,?_⟩ <;>
    grind [moved,Place.armed,Resolution.entry,Resolution.arming]

theorem Located.took (h : s.Located loc) (hs : Took s s' k x) :
    s'.Located (moved loc x.e x.arming (.taken k x)) := by
  have hres := resolutions_eq hs.log
  have hx := (h.heap k x).mp hs.found
  have hnum := (h.held hs.found).2
  obtain ⟨-,hheap,htaken,hcleared,hown,hlocal,hfresh,hlast,hunarmed,hold,hlog⟩ := h
  obtain ⟨hidle,-,hindexed,hheap',harmed,hlocal',harmings,hsoft,-⟩ := hs
  refine ⟨hindexed,?_,?_,?_,?_,?_,?_,?_,?_,?_,?_⟩ <;> grind [moved,Place.armed]

theorem Located.clear (h : s.Located loc) (hs : Cleared s s' k x) :
    s'.Located (moved loc x.e x.arming (.cleared k x)) := by
  have hres := resolutions_eq hs.log
  have hx := (h.taken k x).mp hs.taken
  obtain ⟨-,hheap,htaken,hcleared,hown,hlocal,hfresh,hlast,hunarmed,hold,hlog⟩ := h
  obtain ⟨hk,hindexed,hheap',harmed,hlocal',harmings,hsoft,-⟩ := hs
  refine ⟨hindexed,?_,?_,?_,?_,?_,?_,?_,?_,?_,?_⟩ <;> grind [moved,Place.armed]

theorem Located.call (h : s.Located loc) (hs : Called s s' k x) :
    s'.Located (moved loc x.e x.arming .done) := by
  have hres := resolutions_cons hs.log
  have hx := (h.cleared k x).mp hs.cleared
  obtain ⟨-,hheap,htaken,hcleared,hown,hlocal,hfresh,hlast,hunarmed,hold,hlog⟩ := h
  obtain ⟨hk,hindexed,hheap',harmed,hlocal',harmings,hsoft,-⟩ := hs
  refine ⟨hindexed,?_,?_,?_,?_,?_,?_,?_,?_,?_,?_⟩ <;>
    grind [moved,Place.armed,Resolution.entry,Resolution.arming]

omit [DecidableEq K] in
theorem Located.waiting_iff (h : s.Located loc) {e n : ℕ} :
    s.Waiting e n ↔ loc e n ≠ .fresh ∧ loc e n ≠ .done := by
  constructor
  · rintro ⟨k,x,hx | hx | hx,rfl,rfl⟩
    · simp [(h.heap k x).mp hx]
    · simp [(h.taken k x).mp hx]
    · simp [(h.cleared k x).mp hx]
  · intro hn
    have hown := h.own e n
    cases hp : loc e n with
    | fresh | done => simp [hp] at hn
    | heap k x =>
      obtain ⟨rfl,rfl⟩ := hown k x (.inl hp)
      exact ⟨k,x,.inl ((h.heap k x).mpr hp),rfl,rfl⟩
    | taken k x =>
      obtain ⟨rfl,rfl⟩ := hown k x (.inr (.inl hp))
      exact ⟨k,x,.inr (.inl ((h.taken k x).mpr hp)),rfl,rfl⟩
    | cleared k x =>
      obtain ⟨rfl,rfl⟩ := hown k x (.inr (.inr hp))
      exact ⟨k,x,.inr (.inr ((h.cleared k x).mpr hp)),rfl,rfl⟩

omit [DecidableEq K] in
/-- Under the condition, an entry that is armed is in a heap when it is cancelled. -/
theorem Located.found (h : s.Located loc) (hset : s.Settled e) (he : s.armed e = true) :
    ∃ k x, s.InHeap k x ∧ x.e = e := by
  cases hn : s.armings e with
  | zero => simp [h.unarmed e hn] at he
  | succ n =>
    rw [h.last e n hn] at he
    cases hp : loc e n with
    | fresh | cleared | done => simp [hp,Place.armed] at he
    | heap k x =>
      obtain ⟨rfl,rfl⟩ := h.own e n k x (.inl hp)
      exact ⟨k,x,(h.heap k x).mpr hp,rfl⟩
    | taken k x =>
      obtain ⟨rfl,rfl⟩ := h.own e n k x (.inr (.inl hp))
      exact absurd (taking_eq_some.mpr ⟨x,(h.taken k x).mpr hp,rfl⟩) (hset k)

end Places

/-- Every arming is somewhere. -/
def Inv (s : Sys K) : Prop := ∃ loc, s.Located loc

theorem step_inv {ev : Event K} (h : s.Inv) (hok : s.Outside ev) (hs : s.step ev = some s') :
    s'.Inv := by
  obtain ⟨loc,h⟩ := h
  cases ev with
  | timerStart k e deadlineUs =>
    exact ⟨_,h.started (timerStartLocked_spec h.heaps (fun k x hx => (h.held hx).1) hs)⟩
  | timerCancel k e =>
    obtain ⟨⟨u,r⟩,hu,rfl⟩ := map_eq_some_iff.mp hs
    rcases timerCancel_spec h.heaps (h.found hok) hu with ⟨-,rfl⟩ | ⟨-,hspec⟩
    · exact ⟨loc,h⟩
    · exact ⟨_,h.cancelled hspec⟩
  | softirqTake k nowUs =>
    obtain ⟨x,hspec⟩ := softirqTake_spec h.heaps hs
    exact ⟨_,h.took hspec⟩
  | softirqClear k =>
    obtain ⟨x,hspec⟩ := softirqClear_spec h.heaps hs
    exact ⟨_,h.clear hspec⟩
  | softirqCall k =>
    obtain ⟨x,hspec⟩ := softirqCall_spec h.heaps hs
    exact ⟨_,h.call hspec⟩

omit [DecidableEq K] in
theorem two_le_resolutions {e n : ℕ} (hcan : .cancelled e n ∈ s.log) (hcall : .called e n ∈ s.log) :
    2 ≤ s.resolutions e n := by
  have hsub : [Resolution.cancelled e n,.called e n] ⊆ s.log := by simp [hcan,hcall]
  have hle := (List.subperm_of_subset (by simp) hsub).countP_le fun r => r.entry = e ∧ r.arming = n
  simpa [resolutions,Resolution.entry,Resolution.arming] using hle

/-- The runs of the timers of the kthreads `K`. -/
def run (es : List (Event K)) : Option (Sys K) := Machine.run step init es

end Sys

/-- In every run in which no `timer_cancel` finds its entry taken and still armed, an arming is
waiting or was resolved once, an arming that was cancelled has no call, and a cancel takes no
other timer out of the heaps. -/
theorem armings_resolved {es : List (Event K)} (hok : Machine.Along Sys.step Sys.Outside Sys.init es)
    (hs : Sys.run es = some s) :
    (∀ e n, n < s.armings e → (s.Waiting e n ∧ s.resolutions e n = 0) ∨
      (¬s.Waiting e n ∧ s.resolutions e n = 1)) ∧
    (∀ e n, .cancelled e n ∈ s.log → .called e n ∉ s.log) ∧
    ∀ k e s' r, s.Settled e → s.timerCancel k e = some (s',r) →
      (r = some true → ∃ k' x, s.InHeap k' x ∧ x.e = e) ∧
      ∀ k' x, s'.InHeap k' x ↔ s.InHeap k' x ∧ (r = some true → x.e ≠ e) := by
  obtain ⟨loc,h⟩ := Machine.run_invariant Sys.step_inv ⟨_,Sys.located_init⟩ hok hs
  refine ⟨fun e n hn => ?_,fun e n hcan hcall => ?_,fun k e s' r hset hr => ?_⟩
  · grind [h.waiting_iff (e:=e) (n:=n),h.log e n,h.fresh e n]
  · have := Sys.two_le_resolutions hcan hcall
    have := h.log e n
    omega
  · rcases Sys.timerCancel_spec h.heaps (h.found hset) hr with ⟨hno,rfl⟩ | ⟨rfl,hspec⟩
    · exact ⟨fun h => absurd h hno,fun k' x => by simp [hno]⟩
    · exact ⟨fun _ => hspec.found,fun k' x => by simpa using hspec.heap k' x⟩

/-- Three timers on two kthreads: one is called, one cancelled, one armed again by its handler. -/
def threeTimers (a b : K) : List (Event K) :=
  [.timerStart a 0 5,.timerStart a 1 3,.timerStart b 2 4,.softirqTake a 3,.softirqClear a,
    .timerStart b 1 9,.softirqCall a,.timerCancel b 2,.timerCancel a 1,.timerCancel b 1]

theorem armings_resolved_three_timers : ∃ s, Sys.run (threeTimers (0 : Fin 2) 1) = some s ∧
    s.log = [.cancelled 1 1,.cancelled 2 0,.called 1 0] ∧
    (∀ e n, n < s.armings e → (s.Waiting e n ∧ s.resolutions e n = 0) ∨
      (¬s.Waiting e n ∧ s.resolutions e n = 1)) ∧
    (∀ e n, .cancelled e n ∈ s.log → .called e n ∉ s.log) ∧
    ∀ k e s' r, s.Settled e → s.timerCancel k e = some (s',r) →
      (r = some true → ∃ k' x, s.InHeap k' x ∧ x.e = e) ∧
      ∀ k' x, s'.InHeap k' x ↔ s.InHeap k' x ∧ (r = some true → x.e ≠ e) := by
  obtain ⟨s,hs,hlog⟩ : ∃ s ∈ Sys.run (threeTimers (0 : Fin 2) 1),
      s.log = [.cancelled 1 1,.cancelled 2 0,.called 1 0] := by decide +kernel
  exact ⟨s,hs,hlog,armings_resolved (by decide +kernel) hs⟩

/-- A `timer_cancel` that comes before the write of `armed` returns true, the handler is called
all the same, and the other timer of the heap is lost. -/
theorem cancel_in_window : ∃ s : Sys (Fin 1),
    Sys.run [.timerStart 0 0 5,.timerStart 0 1 10,.softirqTake 0 7,.timerCancel 0 0,
      .softirqClear 0,.softirqCall 0] = some s ∧
    .cancelled 0 0 ∈ s.log ∧ .called 0 0 ∈ s.log ∧
    0 < s.armings 1 ∧ ¬s.Waiting 1 0 ∧ s.resolutions 1 0 = 0 := by
  obtain ⟨s,hs,hcan,hcall,harm,hres,hn,hsoft⟩ : ∃ s ∈ Sys.run (K:=Fin 1) [.timerStart 0 0 5,
      .timerStart 0 1 10,.softirqTake 0 7,.timerCancel 0 0,.softirqClear 0,.softirqCall 0],
      .cancelled 0 0 ∈ s.log ∧ .called 0 0 ∈ s.log ∧ 0 < s.armings 1 ∧ s.resolutions 1 0 = 0 ∧
      s.timern 0 = 0 ∧ s.softirq 0 = none := by decide +kernel
  refine ⟨s,hs,hcan,hcall,harm,?_,hres⟩
  rintro ⟨k,x,hx,-⟩
  obtain rfl : k = 0 := Subsingleton.elim k 0
  rcases hx with ⟨j,hj,-⟩ | hx | hx
  · omega
  · simp [hsoft] at hx
  · simp [hsoft] at hx

end Timer
end Vessel
