import Mathlib.Algebra.Order.BigOperators.Group.Finset
import Mathlib.Data.Fintype.Basic
import Mathlib.Data.List.Perm.Basic
import Vessel.Rcu

/-! The grace period: when `rcu_worker` runs a callback, the read sections that were open at the
call of `rcu_free` have been left, and every callback is run once. -/
namespace Vessel

open Function List Option
namespace Rcu

/-- The generation number is odd when a uthread runs. -/
def Mode.odd : Mode → Bool
  | .thread _ => true
  | .back => true
  | _ => false

theorem and_one_eq_one_iff {g : BitVec 32} : g &&& 1 = 1 ↔ g.toNat%2 = 1 := by
  rw [← BitVec.toNat_inj,BitVec.toNat_and,← Nat.and_one_is_mod]
  rfl

namespace Kthread

variable {k k' : Kthread} {e : Move} {m : ℕ}

/-- The parity of the generation number tells where the kthread is. -/
def Tells (k : Kthread) : Prop := k.rcuGen.toNat%2 = if k.mode.odd then 1 else 0

theorem reading_eq_some : k.reading = some m ↔ k.Inside m := by
  obtain ⟨g,mode,l⟩ := k
  cases mode with
  | thread d => cases d <;> simp [reading,Inside]
  | _ => simp [reading,Inside]

theorem Inside.odd (hin : k.Inside m) (h : k.Tells) : k.rcuGen &&& 1 = 1 := by
  obtain ⟨⟨d,hd⟩,-⟩ := hin
  rw [Tells,hd] at h
  exact and_one_eq_one_iff.mpr h

theorem tells_add_one {mode mode' : Mode} {l : ℕ} (h : Tells ⟨k.rcuGen,mode,l⟩)
    (hne : mode'.odd = !mode.odd) : Tells ⟨k.rcuGen+1,mode',l⟩ := by
  simp only [Tells,hne] at h ⊢
  cases hodd : mode.odd with
  | false =>
    rw [hodd] at h
    simp only [Bool.false_eq_true,if_false,Bool.not_false,if_true] at h ⊢
    bv_omega
  | true =>
    rw [hodd] at h
    simp only [Bool.false_eq_true,if_false,Bool.not_true,if_true] at h ⊢
    bv_omega

/-- What a kthread can do: a read section that is open afterwards was open before, or has a new
number, and while it is open the generation number stays. -/
theorem move_spec (h : k.Tells) (hm : k.move e = some k') :
    k'.Tells ∧ k.sections ≤ k'.sections ∧
      ∀ m ≤ k.sections, k'.Inside m → k.Inside m ∧ k'.rcuGen = k.rcuGen := by
  obtain ⟨g,mode,l⟩ := k
  have hout : ∀ {g' mode' m}, (∀ d, mode' ≠ .thread (d+1)) → ¬Inside ⟨g',mode',l⟩ m :=
    fun hmode hin => hin.1.elim hmode
  cases e with
  | scheduleStart =>
    obtain ⟨-,⟨⟩⟩ := ite_none_right_eq_some.mp hm
    exact ⟨rfl,le_rfl,fun m _ hin => absurd hin (hout nofun)⟩
  | schedule =>
    obtain ⟨rfl | rfl,⟨⟩⟩ := ite_none_right_eq_some.mp hm
    · exact ⟨tells_add_one h rfl,le_rfl,fun m _ hin => absurd hin (hout nofun)⟩
    · exact ⟨tells_add_one h rfl,le_rfl,fun m _ hin => absurd hin (hout nofun)⟩
  | scheduleDone =>
    obtain ⟨rfl,⟨⟩⟩ := ite_none_right_eq_some.mp hm
    exact ⟨tells_add_one h rfl,le_rfl,fun m _ hin => absurd hin (hout nofun)⟩
  | enterSchedule =>
    obtain ⟨rfl,⟨⟩⟩ := ite_none_right_eq_some.mp hm
    refine ⟨?_,le_rfl,fun m _ hin => absurd hin (hout nofun)⟩
    simp only [Tells] at h ⊢
    bv_omega
  | cede =>
    obtain ⟨rfl,⟨⟩⟩ := ite_none_right_eq_some.mp hm
    exact ⟨tells_add_one h rfl,le_rfl,fun m _ hin => absurd hin (hout nofun)⟩
  | cedeDone =>
    obtain ⟨rfl,⟨⟩⟩ := ite_none_right_eq_some.mp hm
    exact ⟨tells_add_one h rfl,le_rfl,fun m _ hin => absurd hin (hout nofun)⟩
  | rcuReadLock =>
    rw [move] at hm
    split at hm
    · next hmode =>
      obtain rfl := some.inj hm
      obtain rfl : mode = .thread 0 := hmode
      refine ⟨h,Nat.le_succ l,fun m hle hin => ?_⟩
      have heq : l+1 = m := hin.2
      have hle : m ≤ l := hle
      omega
    · next d hmode =>
      obtain rfl := some.inj hm
      obtain rfl : mode = .thread (d+1) := hmode
      exact ⟨h,le_rfl,fun m _ hin => ⟨⟨⟨d,rfl⟩,hin.2⟩,rfl⟩⟩
    · contradiction
  | rcuReadUnlock =>
    rw [move] at hm
    split at hm
    · next d hmode =>
      obtain rfl := some.inj hm
      obtain rfl : mode = .thread (d+1) := hmode
      exact ⟨h,le_rfl,fun m _ hin => ⟨⟨⟨d,rfl⟩,hin.2⟩,rfl⟩⟩
    · contradiction

end Kthread

variable {n : ℕ} {ks ks' : Fin n → Kthread} {w w' : Worker n} {s s' : Sys n}

/-- No callback of `head` waits for a read section of `k` that has the number `m` and is open. -/
def Left (ks : Fin n → Kthread) (head : List (Callback n)) (k : Fin n) : Prop :=
  ∀ c ∈ head, ∀ m, c.seen k = some m → ¬(ks k).Inside m

/-- If a section that some callback of `head` waits for is open at `k`, then `last` is its
generation number. -/
def Recorded (ks : Fin n → Kthread) (last : Fin n → BitVec 32) (head : List (Callback n))
    (k : Fin n) : Prop :=
  ∀ c ∈ head, ∀ m, c.seen k = some m → (ks k).Inside m → last k = (ks k).rcuGen

/-- What the worker knows where it is. -/
def Worker.Knows (ks : Fin n → Kthread) : Worker n → Prop
  | .idle => True
  | .loading last i head => ∀ k, k.val < i → Recorded ks last head k
  | .sleeping last head => ∀ k, Recorded ks last head k
  | .checking last i head => (∀ k, Recorded ks last head k) ∧ ∀ k, k.val < i → Left ks head k
  | .calling head => ∀ k, Left ks head k

/-- The sections that the callbacks wait for are not in the future. -/
def Past (ks : Fin n → Kthread) (cs : List (Callback n)) : Prop :=
  ∀ c ∈ cs, ∀ k m, c.seen k = some m → m ≤ (ks k).sections

/-- Sections are left for good, and while one is open the generation number stays. -/
structure Later (ks ks' : Fin n → Kthread) : Prop where
  sections : ∀ k, (ks k).sections ≤ (ks' k).sections
  inside : ∀ k, ∀ m ≤ (ks k).sections, (ks' k).Inside m →
    (ks k).Inside m ∧ (ks' k).rcuGen = (ks k).rcuGen

theorem Later.past {cs : List (Callback n)} (hl : Later ks ks') (h : Past ks cs) : Past ks' cs :=
  fun c hc k m hm => (h c hc k m hm).trans (hl.sections k)

theorem Later.left {cs : List (Callback n)} (hl : Later ks ks') (hp : Past ks cs) {k : Fin n}
    (h : Left ks cs k) : Left ks' cs k :=
  fun c hc m hm hin => h c hc m hm (hl.inside k m (hp c hc k m hm) hin).1

theorem Later.recorded {cs : List (Callback n)} {last : Fin n → BitVec 32} (hl : Later ks ks')
    (hp : Past ks cs) {k : Fin n} (h : Recorded ks last cs k) : Recorded ks' last cs k := by
  intro c hc m hm hin
  obtain ⟨hin',hgen⟩ := hl.inside k m (hp c hc k m hm) hin
  rw [hgen]
  exact h c hc m hm hin'

theorem Later.knows (hl : Later ks ks') (hp : Past ks w.head) (h : w.Knows ks) : w.Knows ks' := by
  cases w with
  | idle => trivial
  | loading last i head => exact fun k hk => hl.recorded hp (h k hk)
  | sleeping last head => exact fun k => hl.recorded hp (h k)
  | checking last i head =>
    exact ⟨fun k => hl.recorded hp (h.1 k),fun k hk => hl.left hp (h.2 k hk)⟩
  | calling head => exact fun k => hl.left hp (h k)

theorem Worker.load_spec (h : w.Knows ks) (hw : w.load ks = some w') :
    w'.head = w.head ∧ w'.Knows ks := by
  cases w with
  | loading last i head =>
    rw [load] at hw
    split at hw
    · next hi =>
      obtain rfl := some.inj hw
      refine ⟨rfl,fun k hk c hc m hm hin => ?_⟩
      rcases Nat.lt_succ_iff_lt_or_eq.mp hk with hlt | heq
      · have hne : k ≠ ⟨i,hi⟩ := fun heq => hlt.ne (congrArg Fin.val heq)
        rw [update_of_ne hne]
        exact h k hlt c hc m hm hin
      · obtain rfl : k = ⟨i,hi⟩ := Fin.ext heq
        exact update_self ..
    · next hi =>
      obtain rfl := some.inj hw
      exact ⟨rfl,fun k => h k (by omega)⟩
  | _ => contradiction

theorem Worker.check_spec (ht : ∀ k, (ks k).Tells) (h : w.Knows ks) (hw : w.check ks = some w') :
    w'.head = w.head ∧ w'.Knows ks := by
  cases w with
  | checking last i head =>
    rw [check] at hw
    split at hw
    · next hi =>
      split at hw
      · obtain rfl := some.inj hw
        exact ⟨rfl,h.1⟩
      · next hpass =>
        obtain rfl := some.inj hw
        refine ⟨rfl,h.1,fun k hk => ?_⟩
        rcases Nat.lt_succ_iff_lt_or_eq.mp hk with hlt | heq
        · exact h.2 k hlt
        · obtain rfl : k = ⟨i,hi⟩ := Fin.ext heq
          exact fun c hc m hm hin =>
            hpass ⟨hin.odd (ht _),(h.1 _ c hc m hm hin).symm⟩
    · next hi =>
      obtain rfl := some.inj hw
      exact ⟨rfl,fun k => h.2 k (by omega)⟩
  | _ => contradiction

namespace Sys

/-- The callbacks of all calls so far. -/
def callbacks (s : Sys n) : List (Callback n) := s.rcuHead++(s.worker.head++s.ran)

structure Inv (s : Sys n) : Prop where
  tells : ∀ k, (s.ks k).Tells
  past : Past s.ks s.callbacks
  knows : s.worker.Knows s.ks
  ran : ∀ k, Left s.ks s.ran k
  once : (s.callbacks.map Callback.id).Perm (List.range s.calls)

theorem inv_init : (init : Sys n).Inv where
  tells _ := rfl
  past _ hc := nomatch hc
  knows := trivial
  ran _ _ hc := nomatch hc
  once := List.Perm.refl []

theorem Inv.past_head (h : s.Inv) : Past s.ks s.worker.head :=
  fun c hc => h.past c (mem_append_right _ (mem_append_left _ hc))

theorem Inv.past_ran (h : s.Inv) : Past s.ks s.ran :=
  fun c hc => h.past c (mem_append_right _ (mem_append_right _ hc))

theorem Inv.moved {k : Fin n} {k' : Kthread} {m : Move} (h : s.Inv)
    (hm : (s.ks k).move m = some k') : Inv { s with ks := update s.ks k k' } := by
  obtain ⟨htells,hle,hin⟩ := Kthread.move_spec (h.tells k) hm
  have hl : Later s.ks (update s.ks k k') := by
    constructor
    · intro j
      by_cases hj : j = k
      · subst hj
        simpa using hle
      · simp [hj]
    · intro j
      by_cases hj : j = k
      · subst hj
        simpa using hin
      · simp [hj]
  refine ⟨fun j => ?_,hl.past h.past,hl.knows h.past_head h.knows,
    fun j => hl.left h.past_ran (h.ran j),h.once⟩
  by_cases hj : j = k
  · subst hj
    simpa using htells
  · simpa [hj] using h.tells j

theorem Inv.rcuFree (h : s.Inv) : s.rcuFree.Inv := by
  refine ⟨h.tells,fun c hc => ?_,h.knows,h.ran,?_⟩
  · rcases mem_cons.mp hc with rfl | hc
    · intro k m hm
      exact (Kthread.reading_eq_some.mp hm).2.ge
    · exact h.past c hc
  · have hrange : (s.calls::List.range s.calls).Perm (List.range (s.calls+1)) := by
      rw [range_succ]
      exact (perm_append_singleton ..).symm
    exact (h.once.cons s.calls).trans hrange

/-- A step of the worker: the callbacks only change their places. -/
theorem Inv.worked (h : s.Inv) (hks : s'.ks = s.ks) (hcalls : s'.calls = s.calls)
    (hperm : s'.callbacks.Perm s.callbacks) (hknows : s'.worker.Knows s.ks)
    (hran : ∀ k, Left s.ks s'.ran k) : s'.Inv where
  tells := hks ▸ h.tells
  past := by
    rw [hks]
    exact fun c hc => h.past c (hperm.mem_iff.mp hc)
  knows := hks ▸ hknows
  ran := hks ▸ hran
  once := by
    rw [hcalls]
    exact (hperm.map _).trans h.once

theorem step_inv {e : Event n} (h : s.Inv) (hs : s.step e = some s') : s'.Inv := by
  cases e with
  | kthread k m =>
    obtain ⟨k',hm,rfl⟩ := map_eq_some_iff.mp hs
    exact h.moved hm
  | rcuFree =>
    obtain rfl := some.inj hs
    exact h.rcuFree
  | workerTake =>
    rw [step] at hs
    split at hs
    · next hw =>
      split at hs
      · obtain rfl := some.inj hs
        exact h
      · obtain rfl := some.inj hs
        refine h.worked rfl rfl ?_ (fun k hk => absurd hk (Nat.not_lt_zero _)) h.ran
        simp [callbacks,hw,Worker.head]
    · contradiction
  | workerLoad =>
    obtain ⟨w,hw,rfl⟩ := map_eq_some_iff.mp hs
    obtain ⟨hhead,hknows⟩ := Worker.load_spec h.knows hw
    exact h.worked rfl rfl (by simp [callbacks,hhead]) hknows h.ran
  | workerWake =>
    rw [step] at hs
    split at hs
    · next last head hw =>
      obtain rfl := some.inj hs
      have hknows := h.knows
      rw [hw] at hknows
      exact h.worked rfl rfl (by simp [callbacks,hw,Worker.head])
        ⟨hknows,fun k hk => absurd hk (Nat.not_lt_zero _)⟩ h.ran
    · contradiction
  | workerCheck =>
    obtain ⟨w,hw,rfl⟩ := map_eq_some_iff.mp hs
    obtain ⟨hhead,hknows⟩ := Worker.check_spec h.tells h.knows hw
    exact h.worked rfl rfl (by simp [callbacks,hhead]) hknows h.ran
  | workerCall =>
    have hknows := h.knows
    rw [step] at hs
    split at hs
    · next hw =>
      obtain rfl := some.inj hs
      exact h.worked rfl rfl (by simp [callbacks,hw,Worker.head]) trivial h.ran
    · next c rest hw =>
      obtain rfl := some.inj hs
      rw [hw] at hknows
      refine h.worked rfl rfl ?_ (fun k c' hc' => hknows k c' (mem_cons_of_mem _ hc')) ?_
      · simp only [callbacks,hw,Worker.head]
        exact (perm_middle).append_left _
      · intro k c' hc'
        rcases mem_cons.mp hc' with rfl | hc'
        · exact hknows k c' mem_cons_self
        · exact h.ran k c' hc'
    · contradiction

end Sys

/-- How many moves a kthread makes until it is in the scheduler. -/
def Mode.busy : Mode → ℕ
  | .thread d => d+1
  | .back => 1
  | _ => 0

/-- How many steps the worker makes when no check fails. -/
def Worker.left : Worker n → ℕ
  | .idle => 0
  | .calling head => head.length+1
  | .checking _ i head => head.length+(n-i)+2
  | .sleeping _ head => head.length+n+3
  | .loading _ i head => head.length+n+(n-i)+4

theorem Kthread.exists_move {k : Kthread} (h : k.mode.busy ≠ 0) :
    ∃ m k', k.move m = some k' ∧ k'.mode.busy < k.mode.busy := by
  obtain ⟨g,mode,l⟩ := k
  cases mode with
  | thread d =>
    cases d with
    | zero => exact ⟨.schedule,⟨g+1,.sched,l⟩,rfl,Nat.zero_lt_one⟩
    | succ d => exact ⟨.rcuReadUnlock,⟨g,.thread d,l⟩,rfl,Nat.lt_succ_self _⟩
  | back => exact ⟨.schedule,⟨g+1,.sched,l⟩,rfl,Nat.zero_lt_one⟩
  | _ => contradiction

theorem Kthread.Tells.even {k : Kthread} (h : k.Tells) (hk : k.mode.busy = 0) :
    ¬k.rcuGen &&& 1 = 1 := by
  rw [and_one_eq_one_iff,h]
  obtain ⟨g,mode,l⟩ := k
  cases mode <;> simp_all [Mode.busy,Mode.odd]

namespace Sys

def left (s : Sys n) : ℕ :=
  (∑ k, (s.ks k).mode.busy)+s.worker.left+
    if s.rcuHead = [] then 0 else s.rcuHead.length+2*n+5

theorem exists_worker_step (ht : ∀ k, (s.ks k).Tells) (hk : ∀ k, (s.ks k).mode.busy = 0)
    (hw : s.worker ≠ .idle) : ∃ e s', s.step e = some s' ∧ s'.ks = s.ks ∧
      s'.rcuHead = s.rcuHead ∧ s'.calls = s.calls ∧ s'.worker.left < s.worker.left := by
  cases hcase : s.worker with
  | idle => exact absurd hcase hw
  | loading last i head =>
    by_cases hi : i < n
    · refine ⟨.workerLoad,{ s with
        worker := .loading (update last ⟨i,hi⟩ (s.ks ⟨i,hi⟩).rcuGen) (i+1) head },
        ?_,rfl,rfl,rfl,?_⟩
      · rw [step,hcase,Worker.load,dif_pos hi]
        rfl
      · simp only [Worker.left]
        omega
    · refine ⟨.workerLoad,{ s with worker := .sleeping last head },?_,rfl,rfl,rfl,?_⟩
      · rw [step,hcase,Worker.load,dif_neg hi]
        rfl
      · simp only [Worker.left]
        omega
  | sleeping last head =>
    refine ⟨.workerWake,{ s with worker := .checking last 0 head },by rw [step,hcase],rfl,rfl,rfl,?_⟩
    simp only [Worker.left]
    omega
  | checking last i head =>
    by_cases hi : i < n
    · have heven := (ht ⟨i,hi⟩).even (hk _)
      refine ⟨.workerCheck,{ s with worker := .checking last (i+1) head },?_,rfl,rfl,rfl,?_⟩
      · rw [step,hcase,Worker.check,dif_pos hi,if_neg fun h => heven h.1]
        rfl
      · simp only [Worker.left]
        omega
    · refine ⟨.workerCheck,{ s with worker := .calling head },?_,rfl,rfl,rfl,?_⟩
      · rw [step,hcase,Worker.check,dif_neg hi]
        rfl
      · simp only [Worker.left]
        omega
  | calling head =>
    cases head with
    | nil =>
      exact ⟨.workerCall,{ s with worker := .idle },by rw [step,hcase],rfl,rfl,rfl,Nat.zero_lt_one⟩
    | cons c rest =>
      exact ⟨.workerCall,{ s with worker := .calling rest, ran := c::s.ran },by rw [step,hcase],rfl,
        rfl,rfl,Nat.lt_succ_self _⟩

theorem exists_step (h : s.Inv) (hq : ¬(s.worker = .idle ∧ s.rcuHead = [])) :
    ∃ e s', s.step e = some s' ∧ s'.calls = s.calls ∧ s'.left < s.left := by
  by_cases hbusy : ∀ k, (s.ks k).mode.busy = 0
  · by_cases hw : s.worker = .idle
    · have hne : s.rcuHead ≠ [] := fun heq => hq ⟨hw,heq⟩
      refine ⟨.workerTake,{ s with worker := .loading (fun _ => 0) 0 s.rcuHead, rcuHead := [] },?_,
        rfl,?_⟩
      · rw [step,hw]
        exact if_neg hne
      · simp only [left,hw,Worker.left,if_neg hne,if_true]
        omega
    · obtain ⟨e,s',hs,hks,hhead,hcalls,hlt⟩ := exists_worker_step h.tells hbusy hw
      refine ⟨e,s',hs,hcalls,?_⟩
      simp only [left,hks,hhead]
      omega
  · obtain ⟨k,hk⟩ := not_forall.mp hbusy
    obtain ⟨m,k',hm,hlt⟩ := Kthread.exists_move hk
    refine ⟨.kthread k m,{ s with ks := update s.ks k k' },by rw [step,hm]; rfl,rfl,?_⟩
    have hsum : ∑ j, (update s.ks k k' j).mode.busy < ∑ j, (s.ks j).mode.busy := by
      refine Finset.sum_lt_sum (fun j _ => ?_) ⟨k,Finset.mem_univ k,by simpa using hlt⟩
      by_cases hj : j = k
      · subst hj
        simpa using hlt.le
      · simp [hj]
    simp only [left]
    omega

end Sys

/-- In every run, a callback that has run is past the read sections that were open at its call of
`rcu_free`; every call of `rcu_free` has its callback in one place, so none is run twice; and the
run can go on so that exactly these callbacks have run. -/
theorem grace_period {es : List (Event n)} (hs : Sys.run es = some s) :
    (∀ c ∈ s.ran, s.Quiescent c) ∧
    ((s.rcuHead++(s.worker.head++s.ran)).map Callback.id).Perm (List.range s.calls) ∧
    (s.ran.map Callback.id).Nodup ∧
    ∃ es' s', Machine.run Sys.step s es' = some s' ∧
      (s'.ran.map Callback.id).Perm (List.range s.calls) := by
  have h : s.Inv := Machine.run_keeps Sys.step_inv Sys.inv_init hs
  have hnodup : (s.callbacks.map Callback.id).Nodup := h.once.nodup_iff.mpr nodup_range
  refine ⟨fun c hc k => h.ran k c hc,h.once,?_,?_⟩
  · simp only [Sys.callbacks,map_append] at hnodup
    exact hnodup.of_append_right.of_append_right
  · have hstep : ∀ t : Sys n, t.Inv ∧ t.calls = s.calls → ¬(t.worker = .idle ∧ t.rcuHead = []) →
        ∃ e u, t.step e = some u ∧ (u.Inv ∧ u.calls = s.calls) ∧ u.left < t.left := by
      intro t ht hq
      obtain ⟨e,u,hu,hcalls,hlt⟩ := Sys.exists_step ht.1 hq
      exact ⟨e,u,hu,⟨Sys.step_inv ht.1 hu,hcalls.trans ht.2⟩,hlt⟩
    obtain ⟨es',s',hrun,⟨hi,hcalls⟩,hidle,hempty⟩ :=
      Machine.exists_run_of_measure Sys.left hstep s ⟨h,rfl⟩
    have hperm := hi.once
    rw [Sys.callbacks,hidle,hempty,hcalls] at hperm
    exact ⟨es',s',hrun,hperm⟩

/-- Two kthreads.  One is in a read section at the first call of `rcu_free` and in its next one
when the callback runs; the other parks. -/
def twoKthreads : List (Event 2) :=
  [.kthread 0 .scheduleStart,.kthread 1 .scheduleStart,.kthread 0 .schedule,.kthread 1 .schedule,
    .kthread 0 .scheduleDone,.kthread 1 .scheduleDone,.kthread 0 .rcuReadLock,.rcuFree,
    .workerTake,.rcuFree,.workerLoad,.workerLoad,.workerLoad,.kthread 1 .cede,.workerWake,
    .workerCheck,.kthread 0 .rcuReadUnlock,.kthread 0 .enterSchedule,.kthread 0 .rcuReadLock,
    .workerWake,.workerCheck,.workerCheck,.workerCheck,.workerCall,.workerCall]

theorem grace_period_two_kthreads : ∃ s, Sys.run twoKthreads = some s ∧
    s.ran.map Callback.id = [0] ∧ (s.ks 0).reading = some 2 ∧
    (∀ c ∈ s.ran, s.Quiescent c) ∧
    ((s.rcuHead++(s.worker.head++s.ran)).map Callback.id).Perm (List.range s.calls) ∧
    (s.ran.map Callback.id).Nodup ∧
    ∃ es' s', Machine.run Sys.step s es' = some s' ∧
      (s'.ran.map Callback.id).Perm (List.range s.calls) := by
  obtain ⟨s,hs,hran,hreading⟩ : ∃ s ∈ Sys.run twoKthreads,
      s.ran.map Callback.id = [0] ∧ (s.ks 0).reading = some 2 := by decide +kernel
  exact ⟨s,hs,hran,hreading,grace_period hs⟩

end Rcu
end Vessel
