import Mathlib.Data.Nat.ModEq
import Mathlib.Data.List.Nodup
import Mathlib.Tactic.Common
import Vessel.Machine

/-! The queue of busy kthreads in `lf_queue.h`.  Two sentinels move around an array of slots: values
stand after the tail sentinel and before the head sentinel, and a flag for each value tells whether
it is queued. -/
namespace Vessel

open Function List
namespace LfQueue

/-- What a slot of `meta` holds; the first three stand for -1, -2 and -3. -/
inductive Slot where
  | tail
  | head
  | empty
  | value (v : ℕ)
deriving DecidableEq, Repr

/-- `slot` is the array `meta`, and `taken` the flags of `set`. -/
structure Queue where
  slot : ℕ → Slot
  size : ℕ
  head : BitVec 32
  tail : BitVec 32
  taken : ℕ → Bool

/-- `lf_queue_init` on slots that `busy_kthread_alloc` has made empty. -/
def lfQueueInit (size : ℕ) : Queue where
  slot := update (update (fun _ => .empty) 1 .head) 0 .tail
  size := size
  head := 1
  tail := 0
  taken := fun _ => false

/-- The loop of `lf_queue_put_with_meta`.  Nothing else runs meanwhile, so that it never ends where
its first round does not end it. -/
def putLoop (q : Queue) (v : ℕ) : Option (Queue × Bool) :=
  let head := (q.head+1).toNat%q.size
  let oriHead := q.head.toNat%q.size
  match q.slot head with
  | .tail => some (q,false)
  | .empty => some ({ q with
      slot := update (update q.slot head .head) oriHead (.value v)
      head := q.head+1 },true)
  | _ => none

def lfQueuePutWithMeta (q : Queue) (v : ℕ) : Option (Queue × Bool) :=
  if q.taken v then some (q,false)
  else putLoop { q with taken := update q.taken v true } v

/-- `lf_queue_get`, which aborts if the flag of the value is not set. -/
def lfQueueGet (q : Queue) : Option (Queue × Option ℕ) :=
  let tail := (q.tail+1).toNat%q.size
  let oriTail := q.tail.toNat%q.size
  match q.slot tail with
  | .head => some (q,none)
  | .value v =>
    if q.taken v then
      some ({ q with
        slot := update (update q.slot tail .tail) oriTail .empty
        tail := q.tail+1
        taken := update q.taken v false },some v)
    else none
  | _ => none

/-- The queue with the values it has accepted and those it has given back. -/
structure Sys where
  q : Queue
  accepted : List ℕ
  got : List ℕ

def Sys.init (size : ℕ) : Sys := ⟨lfQueueInit size,[],[]⟩

def Sys.queued (s : Sys) : List ℕ := s.accepted.drop s.got.length

inductive Event where
  | put (v : ℕ)
  | get
deriving DecidableEq, Repr

def step (s : Sys) : Event → Option Sys
  | .put v => (lfQueuePutWithMeta s.q v).map fun (q,ok) =>
      ⟨q,if ok then s.accepted++[v] else s.accepted,s.got⟩
  | .get => (lfQueueGet s.q).map fun (q,v) => ⟨q,s.accepted,s.got++v.toList⟩

/-- A put that gets past the flag finds room, and does not bring the head to 2^32 unless the size
divides that. -/
def Unobstructed (s : Sys) : Event → Prop
  | .put v => s.q.taken v = false →
      s.q.slot ((s.q.head+1).toNat%s.q.size) ≠ .tail ∧ (s.q.size ∣ 2^32 ∨ s.q.head+1 ≠ 0)
  | .get => True

instance (s : Sys) : (e : Event) → Decidable (Unobstructed s e)
  | .put _ => inferInstanceAs (Decidable (_ → _))
  | .get => instDecidableTrue

/-- What the queue is for: values come out in the order in which they went in, none is in it twice,
and only a value that is in it or a full queue is a reason to refuse. -/
structure Correct (size : ℕ) (s : Sys) : Prop where
  fifo : s.got <+: s.accepted
  nodup : s.queued.Nodup
  put : size ∣ 2^32 ∨ s.q.head+1 ≠ 0 → ∀ v,∃ q ok,lfQueuePutWithMeta s.q v = some (q,ok) ∧
    (ok = false → v ∈ s.queued ∨ s.queued.length = size-2)
  get : ∃ q,lfQueueGet s.q = some (q,s.queued.head?)

/-! ### The slots -/

/-- The slots from the tail sentinel on. -/
def layout (vs : List ℕ) : ℕ → Slot
  | 0 => .tail
  | i+1 => if h : i < vs.length then .value vs[i] else if i = vs.length then .head else .empty

def Lays (slot : ℕ → Slot) (n t : ℕ) (vs : List ℕ) : Prop :=
  ∀ i < n,slot ((t+i)%n) = layout vs i

/-- The queue holds `vs`, and its tail has moved `t` times. -/
structure Holds (q : Queue) (t : ℕ) (vs : List ℕ) : Prop where
  room : vs.length+2 ≤ q.size
  head : q.head = BitVec.ofNat 32 (t+vs.length+1)
  tail : q.tail = BitVec.ofNat 32 t
  wrap : q.size ∣ 2^32 ∨ t+vs.length+1 < 2^32
  slots : Lays q.slot q.size t vs
  taken : ∀ v,q.taken v = true ↔ v ∈ vs
  nodup : vs.Nodup

section Slots

variable {q q' : Queue} {t v i j n : ℕ} {vs : List ℕ}

theorem mod_left_inj (hi : i < n) (hj : j < n) : (t+i)%n = (t+j)%n ↔ i = j := by
  refine ⟨fun h => ?_,fun h => by rw [h]⟩
  exact (Nat.ModEq.add_left_cancel' t h).eq_of_lt_of_lt hi hj

/-- The index of a word is that of the number it stands for, as long as it has not wrapped or the
size divides the circle. -/
theorem ofNat_mod (h : n ∣ 2^32 ∨ i < 2^32) : (BitVec.ofNat 32 i).toNat%n = i%n := by
  rw [BitVec.toNat_ofNat]
  rcases h with hdvd | hlt
  · exact Nat.mod_mod_of_dvd i hdvd
  · rw [Nat.mod_eq_of_lt hlt]

theorem ofNat_succ (i : ℕ) : BitVec.ofNat 32 i+1 = BitVec.ofNat 32 (i+1) := (BitVec.ofNat_add ..).symm

theorem layout_append (hi : i ≠ vs.length+1) (hi' : i ≠ vs.length+2) :
    layout (vs++[v]) i = layout vs i := by
  cases i with
  | zero => rfl
  | succ i =>
    simp only [layout,length_append,length_singleton,getElem_append]
    split_ifs <;> first | rfl | omega

theorem layout_tail : layout (v::vs) (i+2) = layout vs (i+1) := by
  simp [layout]

theorem layout_of_lt (hi : vs.length+2 ≤ i) : layout vs i = .empty := by
  obtain ⟨i,rfl⟩ : ∃ j,i = j+1 := ⟨i-1,by omega⟩
  rw [layout,dif_neg (by omega),if_neg (by omega)]

theorem Lays.push {slot : ℕ → Slot} (h : Lays slot n t vs) (hroom : vs.length+2 < n) (v : ℕ) :
    Lays (update (update slot ((t+(vs.length+2))%n) .head)
      ((t+(vs.length+1))%n) (.value v)) n t (vs++[v]) := by
  intro i hi
  by_cases hfirst : i = vs.length+1
  · subst hfirst
    rw [update_self]
    simp [layout]
  · rw [update_of_ne (mt (mod_left_inj hi (by omega)).mp hfirst)]
    by_cases hsecond : i = vs.length+2
    · subst hsecond
      rw [update_self]
      simp [layout]
    · rw [update_of_ne (mt (mod_left_inj hi hroom).mp hsecond),h i hi,
        layout_append hfirst hsecond]

theorem Lays.pop {slot : ℕ → Slot} (h : Lays slot n t (v::vs)) (hroom : vs.length+3 ≤ n) :
    Lays (update (update slot ((t+1)%n) .tail) ((t+0)%n) .empty) n (t+1) vs := by
  intro i hi
  rw [Nat.add_assoc,Nat.add_comm 1 i]
  by_cases hlast : i+1 = n
  · -- the slot that the sentinel has left comes last now
    rw [hlast,Nat.add_mod_right,layout_of_lt (by omega)]
    exact update_self ..
  · rw [update_of_ne (mt (mod_left_inj (by omega) (by omega)).mp (by omega))]
    cases i with
    | zero => exact update_self ..
    | succ i =>
      rw [update_of_ne (mt (mod_left_inj (by omega) (by omega)).mp (by omega)),
        h _ (by omega),layout_tail]

theorem holds_init (hsize : 2 ≤ n) : Holds (lfQueueInit n) 0 [] where
  room := hsize
  head := rfl
  tail := rfl
  wrap := .inr (by decide)
  slots := by
    intro i hi
    have hi' : i < n := hi
    rw [Nat.zero_add]
    change (lfQueueInit n).slot (i%n) = _
    rw [Nat.mod_eq_of_lt hi']
    rcases i with _ | _ | i
    · rfl
    · rfl
    · simp [lfQueueInit,layout]
  taken := by simp [lfQueueInit]
  nodup := nodup_nil

theorem Holds.putSlots (h : Holds q t vs) (hwrap : q.size ∣ 2^32 ∨ q.head+1 ≠ 0) :
    q.head.toNat%q.size = (t+(vs.length+1))%q.size ∧
      (q.head+1).toNat%q.size = (t+(vs.length+2))%q.size ∧
        (q.size ∣ 2^32 ∨ t+vs.length+2 < 2^32) := by
  have hnext : q.head+1 = BitVec.ofNat 32 (t+vs.length+2) := by rw [h.head,ofNat_succ]
  have hfits : q.size ∣ 2^32 ∨ t+vs.length+2 < 2^32 := by
    rcases hwrap with hdvd | hne
    · exact .inl hdvd
    · rcases h.wrap with hdvd | hlt
      · exact .inl hdvd
      · right
        by_contra hge
        apply hne
        rw [hnext,show t+vs.length+2 = 2^32 by omega]
        rfl
  refine ⟨?_,?_,hfits⟩
  · rw [h.head,ofNat_mod h.wrap]
    rfl
  · rw [hnext,ofNat_mod hfits]
    rfl

theorem Holds.put (h : Holds q t vs) (hv : q.taken v = false)
    (hwrap : q.size ∣ 2^32 ∨ q.head+1 ≠ 0)
    (hroom : q.slot ((q.head+1).toNat%q.size) ≠ .tail) :
    ∃ q',lfQueuePutWithMeta q v = some (q',true) ∧ q'.size = q.size ∧ Holds q' t (vs++[v]) := by
  obtain ⟨hori,hnext,hfits⟩ := h.putSlots hwrap
  have hlt : vs.length+2 < q.size := by
    have := h.room
    by_contra hge
    apply hroom
    rw [hnext,show vs.length+2 = q.size by omega,Nat.add_mod_right,← Nat.add_zero t,
      h.slots 0 (by omega)]
    rfl
  have hempty : q.slot ((t+(vs.length+2))%q.size) = .empty := by
    rw [h.slots _ hlt,layout_of_lt (Nat.le_refl _)]
  refine ⟨{ q with
    slot := update (update q.slot ((t+(vs.length+2))%q.size) .head)
      ((t+(vs.length+1))%q.size) (.value v)
    head := q.head+1
    taken := update q.taken v true },?_,rfl,?_⟩
  · rw [lfQueuePutWithMeta,if_neg (by simp [hv])]
    simp only [putLoop,hnext,hori,hempty]
  · have hnew : v ∉ vs := fun hmem => by simp [(h.taken v).mpr hmem] at hv
    constructor
    · rw [length_append]
      exact hlt
    · rw [length_append,length_singleton,h.head,ofNat_succ]
      rfl
    · exact h.tail
    · rw [length_append,length_singleton]
      exact hfits
    · exact h.slots.push hlt v
    · intro w
      by_cases hw : w = v
      · subst hw
        simp
      · simp [h.taken,hw]
    · rw [nodup_append]
      refine ⟨h.nodup,nodup_singleton v,fun w hw u hu => ?_⟩
      rw [mem_singleton.mp hu]
      exact fun heq => hnew (heq ▸ hw)

/-- A put comes back, and fails only at the flag or past it at a full queue. -/
theorem Holds.put_cases (h : Holds q t vs) (hwrap : q.size ∣ 2^32 ∨ q.head+1 ≠ 0) (v : ℕ) :
    ∃ q' ok,lfQueuePutWithMeta q v = some (q',ok) ∧
      (ok = false → v ∈ vs ∨ vs.length = q.size-2) := by
  cases hv : q.taken v with
  | true => exact ⟨q,false,by simp [lfQueuePutWithMeta,hv],fun _ => .inl ((h.taken v).mp hv)⟩
  | false =>
    by_cases hroom : q.slot ((q.head+1).toNat%q.size) = .tail
    · refine ⟨{ q with taken := update q.taken v true },false,?_,fun _ => .inr ?_⟩
      · rw [lfQueuePutWithMeta,if_neg (by simp [hv])]
        simp only [putLoop,hroom]
      · have hle := h.room
        rw [(h.putSlots hwrap).2.1] at hroom
        by_contra hne
        rw [h.slots _ (by omega),layout_of_lt (Nat.le_refl _)] at hroom
        cases hroom
    · obtain ⟨q',hok,-⟩ := h.put hv hwrap hroom
      exact ⟨q',true,hok,by simp⟩

theorem Holds.get (h : Holds q t vs) :
    ∃ q',lfQueueGet q = some (q',vs.head?) ∧ q'.size = q.size ∧ ∃ t',Holds q' t' vs.tail := by
  have hroom := h.room
  have hori : q.tail.toNat%q.size = (t+0)%q.size := by
    rw [h.tail,ofNat_mod (h.wrap.imp_right (by omega)),Nat.add_zero]
  have hnext : (q.tail+1).toNat%q.size = (t+1)%q.size := by
    rw [h.tail,ofNat_succ,ofNat_mod (h.wrap.imp_right (by omega))]
  have hslot := h.slots 1 (by omega)
  cases vs with
  | nil =>
    refine ⟨q,?_,rfl,t,h⟩
    simp only [lfQueueGet,hnext,hslot]
    rfl
  | cons v vs =>
    rw [length_cons] at hroom
    have hfirst : layout (v::vs) 1 = .value v := by simp [layout]
    refine ⟨{ q with
      slot := update (update q.slot ((t+1)%q.size) .tail) ((t+0)%q.size) .empty
      tail := q.tail+1
      taken := update q.taken v false },?_,rfl,t+1,?_⟩
    · simp only [lfQueueGet,hnext,hori,hslot,hfirst,(h.taken v).mpr mem_cons_self,if_true,
        head?_cons]
    · obtain ⟨hnew,hnodup⟩ := nodup_cons.mp h.nodup
      constructor
      · change vs.length+2 ≤ q.size
        omega
      · rw [h.head,length_cons,tail_cons]
        congr 1
        omega
      · rw [h.tail,ofNat_succ]
      · exact h.wrap.imp_right (by rw [length_cons,tail_cons]; omega)
      · exact h.slots.pop (by omega)
      · intro w
        by_cases hw : w = v
        · subst hw
          simp [hnew]
        · simp [h.taken,hw]
      · exact hnodup

end Slots

/-! ### Runs -/

structure Inv (n : ℕ) (s : Sys) : Prop where
  size : s.q.size = n
  fifo : s.accepted = s.got++s.queued
  holds : ∃ t,Holds s.q t s.queued

section Runs

variable {s s' : Sys} {e : Event} {n : ℕ}

theorem inv_init (hsize : 2 ≤ n) : Inv n (.init n) := ⟨rfl,rfl,0,holds_init hsize⟩

theorem Inv.of_holds {q : Queue} {as gs vs : List ℕ} {t : ℕ} (hsize : q.size = n)
    (hfifo : as = gs++vs) (hq : Holds q t vs) : Inv n ⟨q,as,gs⟩ := by
  have hqueued : Sys.queued ⟨q,as,gs⟩ = vs := by rw [Sys.queued,hfifo,drop_left]
  exact ⟨hsize,by rw [hqueued,hfifo],t,by rwa [hqueued]⟩

theorem Inv.put {v : ℕ} (h : Inv n s) (hok : Unobstructed s (.put v))
    (hstep : step s (.put v) = some s') : Inv n s' := by
  obtain ⟨t,hq⟩ := h.holds
  cases hv : s.q.taken v with
  | true =>
    obtain rfl : s = s' := by simpa [step,lfQueuePutWithMeta,hv] using hstep
    exact h
  | false =>
    obtain ⟨hroom,hwrap⟩ := hok hv
    obtain ⟨q',hput,hsize,hq'⟩ := hq.put hv hwrap hroom
    rw [step,hput] at hstep
    cases hstep
    have hfifo : s.accepted++[v] = s.got++(s.queued++[v]) := by
      rw [← append_assoc,← h.fifo]
    exact .of_holds (hsize.trans h.size) hfifo hq'

theorem Inv.get (h : Inv n s) (hstep : step s .get = some s') : Inv n s' := by
  obtain ⟨t,hq⟩ := h.holds
  obtain ⟨q',hget,hsize,t',hq'⟩ := hq.get
  rw [step,hget] at hstep
  cases hstep
  have hfifo : s.accepted = s.got++s.queued.head?.toList++s.queued.tail := by
    conv_lhs => rw [h.fifo]
    cases s.queued <;> simp
  exact .of_holds (hsize.trans h.size) hfifo hq'

theorem Inv.step (h : Inv n s) (hok : Unobstructed s e) (hstep : step s e = some s') :
    Inv n s' := by
  cases e with
  | put v => exact h.put hok hstep
  | get => exact h.get hstep

theorem Inv.correct (h : Inv n s) : Correct n s := by
  obtain ⟨t,hq⟩ := h.holds
  refine ⟨?_,hq.nodup,?_,?_⟩
  · rw [h.fifo]
    exact prefix_append _ _
  · rw [← h.size]
    exact hq.put_cases
  · obtain ⟨q',hget,-⟩ := hq.get
    exact ⟨q',hget⟩

/-- The queue is correct as long as no put finds it full, and the head does not wrap around a circle
that the size does not divide. -/
theorem busy_queue_correct {es : List Event} (hsize : 2 ≤ n)
    (hok : Machine.Along step Unobstructed (.init n) es)
    (h : Machine.run step (.init n) es = some s) : Correct n s :=
  (Machine.run_invariant Inv.step (inv_init hsize) hok h : Inv n s).correct

theorem busy_queue_correct_round :
    ∃ s ∈ Machine.run step (.init 4) [.put 5,.put 7,.put 5,.get,.put 5,.get],
      s.got = [5,7] ∧ Correct 4 s := by
  obtain ⟨s,hs,hgot⟩ : ∃ s ∈ Machine.run step (.init 4) [.put 5,.put 7,.put 5,.get,.put 5,.get],
      s.got = [5,7] := by decide +kernel
  exact ⟨s,hs,hgot,busy_queue_correct (by decide) (by decide +kernel) hs⟩

/-- The second put of 6 is refused by an empty queue: the first one has left its flag behind when it
found the queue full. -/
theorem put_refused_by_empty :
    ∃ s ∈ Machine.run step (.init 3) [.put 5,.put 6,.get],s.accepted = [5] ∧ s.got = [5] ∧
      ∃ p ∈ lfQueuePutWithMeta s.q 6,p.2 = false := by
  decide +kernel

end Runs

end LfQueue
end Vessel
