import Vessel.TimerInvariant

/-! The order of the heaps, and the earliest deadline that every kthread publishes.  An operation is
one step here: a softirq takes a timer, clears `armed` and calls the handler at once. -/
namespace Vessel
namespace Timer

open IndexedHeap Function Option

/-- `cycles_per_us` and `start_tsc`. -/
structure Clock where
  cyclesPerUs : ℕ
  startTsc : ℕ

/-- A deadline as a cycle count, in the `uint64_t` that is published. -/
def Clock.tsc (c : Clock) (deadlineUs : ℕ) : BitVec 64 :=
  BitVec.ofNat 64 (deadlineUs*c.cyclesPerUs+c.startTsc)

/-- The timers with the `next_timer_tsc` of the kthreads.  `deadlines` is bookkeeping: what an entry
was armed with last. -/
structure Queues (K : Type) where
  base : Sys K
  nextTimerTsc : K → BitVec 64
  deadlines : ℕ → ℕ

inductive Op (K : Type) where
  | timerStart (k : K) (e deadlineUs : ℕ)
  | timerCancel (e : ℕ)
  | softirqOne (k : K) (nowUs : ℕ)
deriving Repr, DecidableEq

variable {K : Type} [DecidableEq K]

namespace Queues

def init : Queues K := ⟨.init,fun _ => 0,fun _ => 0⟩

def updateQPtrs (c : Clock) (q : Queues K) (k : K) : Queues K :=
  let nextTsc := if 0 < q.base.timern k then c.tsc (q.base.timers k 0).deadlineUs else 0
  { q with nextTimerTsc := update q.nextTimerTsc k nextTsc }

def step (c : Clock) (q : Queues K) : Op K → Option (Queues K)
  | .timerStart k e deadlineUs =>
    (q.base.timerStartLocked k e deadlineUs).map fun b => updateQPtrs c
      { q with base := b, deadlines := update q.deadlines e deadlineUs } k
  -- an entry that was never started has no kthread to lock
  | .timerCancel e => (q.base.localk e).bind fun k => (q.base.timerCancel k e).map fun p =>
    if p.2 = some true then updateQPtrs c { q with base := p.1 } k else { q with base := p.1 }
  | .softirqOne k nowUs => (q.base.softirqTake k nowUs).bind fun b =>
    let q := updateQPtrs c { q with base := b } k
    (q.base.softirqClear k).bind fun b => (b.softirqCall k).map fun b => { q with base := b }

def run (c : Clock) (ops : List (Op K)) : Option (Queues K) := Machine.run (step c) init ops

/-- The entries in the heap of `k`, slot by slot. -/
def heap (q : Queues K) (k : K) : List ℕ :=
  (List.range (q.base.timern k)).map fun i => (q.base.timers k i).e

end Queues

/-! ### The order of one section -/

namespace Sys

variable {s s' : Sys K} {k : K} {e deadlineUs nowUs : ℕ}

/-- The heap of `k` is a heap. -/
def InOrder (s : Sys K) (k : K) : Prop :=
  Ordered TimerIdx.deadlineUs 4 (s.timern k) (s.table k)

/-- At most the heap of `k` was written, and it is in order. -/
structure Sifted (s s' : Sys K) (k : K) : Prop where
  ordered : s'.InOrder k
  timern : ∀ k', k' ≠ k → s'.timern k' = s.timern k'
  timers : ∀ k', k' ≠ k → s'.timers k' = s.timers k'

theorem Sifted.of_table {n : ℕ} {t : Table TimerIdx ℕ} (ht : Ordered TimerIdx.deadlineUs 4 n t)
    (hn : s'.timern = update s.timern k n)
    (hs : s'.timers = update s.timers k t.slot) : Sifted s s' k where
  ordered := by
    intro j hj hjn
    rw [hn,update_self] at hjn
    simp only [table,hs,update_self]
    exact ht j hj hjn
  timern k' hk := by rw [hn,update_of_ne hk]
  timers k' hk := by rw [hs,update_of_ne hk]

theorem timerStartLocked_sifted (h : s.InOrder k) (hs : s.timerStartLocked k e deadlineUs = some s') :
    Sifted s s' k := by
  obtain ⟨-,hs⟩ := ite_none_left_eq_some.mp hs
  obtain ⟨-,hs⟩ := ite_none_left_eq_some.mp hs
  obtain rfl := some.inj hs
  exact Sifted.of_table (siftUp_ordered (Nat.lt_succ_self _) h.push) rfl rfl

omit [DecidableEq K] in
theorem without_ordered {i last : ℕ} (h : s.InOrder k) (hn : s.timern k = last+1) (hi : i ≤ last) :
    Ordered TimerIdx.deadlineUs 4 last (s.without k i last) := by
  rw [InOrder,hn] at h
  rw [without]
  split
  · exact h.mono (Nat.le_succ last)
  · next hne => exact (h.mono (Nat.le_succ last)).fill (by decide) (by omega)

theorem timerCancel_sifted {r : Option Bool} (h : s.Heaps)
    (hfound : s.armed e = true → ∃ k x, s.InHeap k x ∧ x.e = e) (ho : s.InOrder k)
    (hs : s.timerCancel k e = some (s',r)) : Sifted s s' k := by
  rcases timerCancel_cases h hfound hs with ⟨-,rfl⟩ | ⟨-,i,last,hn,hi,-,rfl⟩
  · exact ⟨ho,fun _ _ => rfl,fun _ _ => rfl⟩
  · exact Sifted.of_table (without_ordered ho hn hi) rfl rfl

theorem softirqTake_eq_some (hs : s.softirqTake k nowUs = some s') :
    0 < s.timern k ∧ (s.timers k 0).deadlineUs ≤ nowUs ∧
      s'.softirq k = some (.taken (s.timers k 0)) := by
  obtain ⟨⟨-,hpos,hdue⟩,hs⟩ := ite_none_right_eq_some.mp hs
  obtain rfl := some.inj hs
  exact ⟨hpos,hdue,update_self ..⟩

theorem softirqTake_sifted (h : s.InOrder k) (hs : s.softirqTake k nowUs = some s') :
    Sifted s s' k := by
  obtain ⟨-,hs⟩ := ite_none_right_eq_some.mp hs
  obtain rfl := some.inj hs
  have hless : Ordered TimerIdx.deadlineUs 4 (s.timern k-1) (s.table k) := h.mono (Nat.sub_le _ 1)
  refine Sifted.of_table ?_ rfl rfl
  split
  · exact siftDown_ordered (by decide) (hless.fill_down fun hlt => absurd hlt (lt_irrefl 0))
  · exact hless

omit [DecidableEq K] in
theorem Sifted.of_eq {b : Sys K} (h : Sifted s b k) (hn : s'.timern = b.timern)
    (ht : s'.timers = b.timers) : Sifted s s' k where
  ordered := by
    have := h.ordered
    rwa [InOrder,table,hn,ht]
  timern := hn ▸ h.timern
  timers := ht ▸ h.timers

theorem softirqClear_heap (hs : s.softirqClear k = some s') :
    s'.timern = s.timern ∧ s'.timers = s.timers := by
  rw [softirqClear] at hs
  split at hs
  · obtain rfl := some.inj hs
    exact ⟨rfl,rfl⟩
  · contradiction

theorem softirqCall_heap (hs : s.softirqCall k = some s') :
    s'.timern = s.timern ∧ s'.timers = s.timers := by
  rw [softirqCall] at hs
  split at hs
  · obtain rfl := some.inj hs
    exact ⟨rfl,rfl⟩
  · contradiction

end Sys

/-! ### The order of a run -/

namespace Queues

variable {c : Clock} {q q' : Queues K} {b : Sys K} {k : K} {e : ℕ}

/-- What holds between two operations. -/
structure Inv (c : Clock) (q : Queues K) : Prop where
  base : q.base.Inv
  idle : ∀ k, q.base.softirq k = none
  ordered : ∀ k, q.base.InOrder k
  deadlines : ∀ k x, q.base.InHeap k x → x.deadlineUs = q.deadlines x.e
  published : ∀ k, q.nextTimerTsc k =
    if 0 < q.base.timern k then c.tsc (q.base.timers k 0).deadlineUs else 0

omit [DecidableEq K] in
theorem inv_init : Inv c (init : Queues K) where
  base := ⟨_,Sys.located_init⟩
  idle _ := rfl
  ordered _ _ _ hj := absurd hj (Nat.not_lt_zero _)
  deadlines _ _ hx := absurd hx.choose_spec.1 (Nat.not_lt_zero _)
  published _ := rfl

theorem Inv.update (h : Inv c q) (hb : b.Inv) (hidle : ∀ k, b.softirq k = none)
    (hs : Sys.Sifted q.base b k) {f : ℕ → ℕ} (hf : ∀ k x, b.InHeap k x → x.deadlineUs = f x.e) :
    Inv c (updateQPtrs c { q with base := b, deadlines := f } k) where
  base := hb
  idle := hidle
  ordered k' := by
    by_cases hk : k' = k
    · exact hk ▸ hs.ordered
    · have := h.ordered k'
      simp only [Sys.InOrder,Sys.table,Ordered,updateQPtrs,hs.timern k' hk,hs.timers k' hk] at this ⊢
      exact this
  deadlines := hf
  published k' := by
    by_cases hk : k' = k
    · subst hk
      exact update_self ..
    · refine (update_of_ne hk ..).trans ?_
      simp only [updateQPtrs,hs.timern k' hk,hs.timers k' hk]
      exact h.published k'

/-- A pop takes the timer at the root, which has the smallest deadline. -/
theorem softirqOne_spec {nowUs : ℕ} (h : Inv c q) (hs : step c q (.softirqOne k nowUs) = some q') :
    Inv c q' ∧ ∃ x, q.base.InHeap k x ∧ x.deadlineUs ≤ nowUs ∧
      (∀ y, q.base.InHeap k y → x.deadlineUs ≤ y.deadlineUs) ∧
      (∀ k' y, q'.base.InHeap k' y ↔ q.base.InHeap k' y ∧ y.e ≠ x.e) ∧
      q'.base.log = .called x.e x.arming::q.base.log := by
  obtain ⟨b₁,hb₁,hs⟩ := bind_eq_some_iff.mp hs
  obtain ⟨b₂,hb₂,hs⟩ := bind_eq_some_iff.mp hs
  obtain ⟨b₃,hb₃,rfl⟩ := map_eq_some_iff.mp hs
  obtain ⟨hpos,hdue,hroot⟩ := Sys.softirqTake_eq_some hb₁
  obtain ⟨loc,hbase⟩ := h.base
  obtain ⟨x,htook⟩ := Sys.softirqTake_spec hbase.heaps hb₁
  have hinv₁ := hbase.took htook
  obtain ⟨y,hclear⟩ := Sys.softirqClear_spec hinv₁.heaps hb₂
  have hinv₂ := hinv₁.clear hclear
  obtain ⟨z,hcall⟩ := Sys.softirqCall_spec hinv₂.heaps hb₃
  -- the three sections are about one timer
  have htaken := htook.softirq k
  rw [if_pos rfl] at htaken
  obtain rfl : q.base.timers k 0 = x := by simpa using hroot.symm.trans htaken
  obtain rfl : q.base.timers k 0 = y := by simpa using htaken.symm.trans hclear.taken
  have hcleared := hclear.softirq k
  rw [if_pos rfl] at hcleared
  obtain rfl : q.base.timers k 0 = z := by simpa using hcleared.symm.trans hcall.cleared
  have hheap : ∀ k' y, b₃.InHeap k' y ↔ q.base.InHeap k' y ∧ y.e ≠ (q.base.timers k 0).e :=
    fun k' y => by rw [hcall.heap,hclear.heap,htook.heap]
  have hidle : ∀ k', b₃.softirq k' = none := fun k' => by
    rw [hcall.softirq,hclear.softirq,htook.softirq]
    split
    · rfl
    · exact h.idle k'
  obtain ⟨hn₂,ht₂⟩ := Sys.softirqClear_heap hb₂
  obtain ⟨hn₃,ht₃⟩ := Sys.softirqCall_heap hb₃
  have hn := hn₃.trans hn₂
  have ht := ht₃.trans ht₂
  have hsifted := (Sys.softirqTake_sifted (h.ordered k) hb₁).of_eq hn ht
  refine ⟨?_,q.base.timers k 0,⟨0,hpos,rfl⟩,hdue,?_,hheap,?_⟩
  · have hinv := h.update (f:=q.deadlines) ⟨_,hinv₂.call hcall⟩ hidle hsifted fun k' y hy =>
      h.deadlines k' y ((hheap k' y).mp hy).1
    simp only [updateQPtrs,hn,ht] at hinv ⊢
    exact hinv
  · rintro y ⟨i,hi,rfl⟩
    exact (h.ordered k).root_le hi
  · rw [hcall.log,hclear.log,htook.log]

theorem step_inv {op : Op K} (h : Inv c q) (hs : step c q op = some q') : Inv c q' := by
  obtain ⟨loc,hbase⟩ := h.base
  cases op with
  | timerStart k e deadlineUs =>
    obtain ⟨b,hb,rfl⟩ := map_eq_some_iff.mp hs
    have hspec := Sys.timerStartLocked_spec hbase.heaps (fun k x hx => (hbase.held hx).1) hb
    refine h.update ⟨_,hbase.started hspec⟩ (fun k' => by rw [hspec.softirq,h.idle])
      (Sys.timerStartLocked_sifted (h.ordered k) hb) fun k' x hx => ?_
    rcases (hspec.heap k' x).mp hx with hx | ⟨-,rfl⟩
    · have hne : x.e ≠ e := by
        rintro rfl
        exact Bool.false_ne_true (hspec.free.symm.trans (hbase.held hx).1)
      rw [update_of_ne hne]
      exact h.deadlines k' x hx
    · exact (update_self e deadlineUs q.deadlines).symm
  | timerCancel e =>
    obtain ⟨k,-,hs⟩ := bind_eq_some_iff.mp hs
    obtain ⟨⟨b,r⟩,hb,rfl⟩ := map_eq_some_iff.mp hs
    have hsettled : q.base.Settled e := fun k' => by simp [Sys.taking,h.idle]
    rcases Sys.timerCancel_spec hbase.heaps (hbase.found hsettled) hb with ⟨hr,rfl⟩ | ⟨rfl,hspec⟩
    · rw [if_neg hr]
      exact h
    · rw [if_pos rfl]
      refine h.update ⟨_,hbase.cancelled hspec⟩ (fun k' => by rw [hspec.softirq,h.idle])
        (Sys.timerCancel_sifted hbase.heaps (hbase.found hsettled) (h.ordered k) hb)
        fun k' x hx => ?_
      exact h.deadlines k' x ((hspec.heap k' x).mp hx).1
  | softirqOne k nowUs => exact (softirqOne_spec h hs).1

omit [DecidableEq K] in
theorem mem_heap : e ∈ q.heap k ↔ ∃ x, q.base.InHeap k x ∧ x.e = e := by
  simp only [heap,List.mem_map,List.mem_range,Sys.InHeap,Table.Holds]
  constructor
  · rintro ⟨i,hi,he⟩
    exact ⟨_,⟨i,hi,rfl⟩,he⟩
  · rintro ⟨x,⟨i,hi,rfl⟩,he⟩
    exact ⟨i,hi,he⟩

omit [DecidableEq K] in
theorem Inv.nodup_heap (h : Inv c q) : (q.heap k).Nodup := by
  refine List.Nodup.map_on (fun i hi j hj heq => ?_) List.nodup_range
  obtain ⟨loc,hbase⟩ := h.base
  exact (hbase.indexed k).inj (List.mem_range.mp hi) (List.mem_range.mp hj) heq

omit [DecidableEq K] in
/-- The heaps hold the armed entries, every one in the heap of its kthread. -/
theorem Inv.mem_heap_iff (h : Inv c q) :
    e ∈ q.heap k ↔ q.base.armed e = true ∧ q.base.localk e = some k := by
  obtain ⟨loc,hbase⟩ := h.base
  rw [mem_heap]
  constructor
  · rintro ⟨x,hx,rfl⟩
    exact ⟨(hbase.held hx).1,hbase.heaps.localk k x hx⟩
  · rintro ⟨harmed,hlocal⟩
    have hsettled : q.base.Settled e := fun k' => by simp [Sys.taking,h.idle]
    obtain ⟨k',x,hx,rfl⟩ := hbase.found hsettled harmed
    rw [hbase.heaps.localk k' x hx] at hlocal
    exact ⟨x,some.inj hlocal ▸ hx,rfl⟩

end Queues

/-- After every sequence of operations: the heaps are heaps, the entries record their slots, the heap
of a kthread has just the entries that are armed there, with their deadlines and every one once, the
earliest deadline is published, and a pop takes the timer with the smallest deadline. -/
theorem heaps_in_order {c : Clock} {ops : List (Op K)} {q : Queues K}
    (hq : Queues.run c ops = some q) :
    (∀ k j, 0 < j → j < q.base.timern k →
      (q.base.timers k ((j-1)/4)).deadlineUs ≤ (q.base.timers k j).deadlineUs) ∧
    (∀ k, ∀ j < q.base.timern k, q.base.idx (q.base.timers k j).e = j ∧
      (q.base.timers k j).deadlineUs = q.deadlines (q.base.timers k j).e) ∧
    (∀ k e, (q.heap k).count e =
      if q.base.armed e = true ∧ q.base.localk e = some k then 1 else 0) ∧
    (∀ k, q.nextTimerTsc k =
      if q.base.timern k = 0 then 0 else c.tsc (q.base.timers k 0).deadlineUs) ∧
    ∀ k nowUs q', Queues.step c q (.softirqOne k nowUs) = some q' →
      ∃ x, q.base.InHeap k x ∧ (∀ y, q.base.InHeap k y → x.deadlineUs ≤ y.deadlineUs) ∧
        (∀ k' y, q'.base.InHeap k' y ↔ q.base.InHeap k' y ∧ y.e ≠ x.e) ∧
        q'.base.log = .called x.e x.arming::q.base.log := by
  have h : Queues.Inv c q := Machine.run_keeps Queues.step_inv Queues.inv_init hq
  obtain ⟨loc,hbase⟩ := h.base
  refine ⟨h.ordered,fun k j hj => ⟨hbase.indexed k j hj,h.deadlines k _ ⟨j,hj,rfl⟩⟩,fun k e => ?_,
    fun k => ?_,fun k nowUs q' hs => ?_⟩
  · rw [h.nodup_heap.count]
    exact if_congr h.mem_heap_iff rfl rfl
  · rw [h.published k]
    rcases Nat.eq_zero_or_pos (q.base.timern k) with hzero | hpos
    · rw [if_neg (by omega),if_pos hzero]
    · rw [if_pos hpos,if_neg hpos.ne']
  · obtain ⟨-,x,hx,-,hleast,hheap,hlog⟩ := Queues.softirqOne_spec h hs
    exact ⟨x,hx,hleast,hheap,hlog⟩

/-- Ten timers, of which the last one goes up when it takes the place of one that is cancelled. -/
def tenTimers (k : K) : List (Op K) :=
  [.timerStart k 0 1,.timerStart k 1 20,.timerStart k 2 5,.timerStart k 3 6,.timerStart k 4 7,
    .timerStart k 5 21,.timerStart k 6 22,.timerStart k 7 23,.timerStart k 8 24,.timerStart k 9 9,
    .timerCancel 5,.softirqOne k 3]

theorem heaps_in_order_ten_timers : ∃ q, Queues.run ⟨2,100⟩ (tenTimers (0 : Fin 1)) = some q ∧
    q.heap 0 = [2,9,8,3,4,1,6,7] ∧ q.nextTimerTsc 0 = 110 ∧
    ∀ k j, 0 < j → j < q.base.timern k →
      (q.base.timers k ((j-1)/4)).deadlineUs ≤ (q.base.timers k j).deadlineUs := by
  obtain ⟨q,hq,hheap,htsc⟩ : ∃ q ∈ Queues.run ⟨2,100⟩ (tenTimers (0 : Fin 1)),
      q.heap 0 = [2,9,8,3,4,1,6,7] ∧ q.nextTimerTsc 0 = 110 := by
    decide +kernel
  exact ⟨q,hq,hheap,htsc,(heaps_in_order hq).1⟩

end Timer
end Vessel
