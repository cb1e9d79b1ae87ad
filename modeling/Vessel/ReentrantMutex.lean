import Mathlib.Data.List.Nodup
import Mathlib.Tactic.Common
import Vessel.Machine

/-! The reentrant mutex of `reentrant_sync.c`.  The first call initialises it; after that every
call works under `waiter_lock`, which a nested unlock does not give back. -/
namespace Vessel
namespace ReentrantMutex

variable {ι : Type} [DecidableEq ι]

def waiterFlag : BitVec 32 := 1#32 <<< 31

/-- The values 0, 1 and 2 of `init_state`. -/
inductive InitState where
  | none
  | started
  | done
deriving DecidableEq, Repr

/-- `reentrant_mutex_t`.  No thread stands for the values 0 and -1 of `holder`.  `ref` is an `int` in
the source: the depth to which the holder has nested, which is taken to be less than `2^31`. -/
structure Mutex (ι : Type) where
  held : BitVec 32
  waiterLock : Bool
  waiters : List ι
  initState : InitState
  ref : ℤ
  holder : Option ι

def reentrantMutexInit : Mutex ι := ⟨0,false,[],.none,0,none⟩

/-- `__reentrant_mutex_final_init`. -/
def finalInit (m : Mutex ι) : Mutex ι :=
  { m with held := 0,waiterLock := false,waiters := [],ref := 0,holder := none,initState := .done }

/-- What `__reentrant_mutex_lock` and `__reentrant_mutex_try_lock` do under the lock, and whether
the mutex is theirs then. -/
def acquire (m : Mutex ι) (self : ι) : Mutex ι × Bool :=
  if m.holder = some self then ({ m with ref := m.ref+1 },true)
  else if m.held = 0 then ({ m with held := 1,ref := 1,holder := some self },true)
  else ({ m with held := m.held ||| waiterFlag },false)

/-- The section of `__reentrant_mutex_unlock`, and the thread that is to be woken. -/
def release (m : Mutex ι) : Mutex ι × Option ι :=
  let popped := { m with waiters := m.waiters.tail,ref := m.ref-1 }
  -- a nested unlock returns here, with the lock taken and the waiter off the list
  if m.ref ≠ 1 then ({ popped with waiterLock := true },none)
  else
    match m.waiters.head? with
    | none => ({ popped with held := 0,holder := none },none)
    | some th => ({ popped with ref := 1,holder := some th },some th)

inductive Call where
  | lock
  | tryLock
deriving DecidableEq, Repr

inductive Status (ι : Type) where
  | running
  | initing (c : Call)
  | spinning (c : Call)
  | entering (c : Call)
  | parked
  | waking (th : ι)
deriving DecidableEq

/-- The mutex and its threads.  `depth` counts how often a thread has the mutex: once more when a
call gets it or an unlock makes the thread its owner, once less when it unlocks. -/
structure Sys (ι : Type) where
  mutex : Mutex ι
  status : ι → Status ι
  depth : ι → ℕ

def Sys.init : Sys ι := ⟨reentrantMutexInit,fun _ => .running,fun _ => 0⟩

def Sys.setStatus (s : Sys ι) (i : ι) (st : Status ι) : Sys ι :=
  { s with status := Function.update s.status i st }

def Sys.gain (s : Sys ι) (i : ι) : Sys ι :=
  { s with depth := Function.update s.depth i (s.depth i+1) }

def Sys.lose (s : Sys ι) (i : ι) : Sys ι :=
  { s with depth := Function.update s.depth i (s.depth i-1) }

inductive Event (ι : Type) where
  | call (i : ι) (c : Call)
  | init (i : ι)
  | spin (i : ι)
  | enter (i : ι)
  | unlock (i : ι)
  | ready (i : ι)

/-- The compare-and-swap of `init_state` at the start of a call. -/
def Sys.begin (s : Sys ι) (i : ι) (c : Call) : Sys ι :=
  if s.mutex.initState = .none then
    { s with mutex := { s.mutex with initState := .started } }.setStatus i (.initing c)
  else s.setStatus i (.spinning c)

/-- The section of a call that wants the mutex. -/
def Sys.enter (s : Sys ι) (i : ι) (c : Call) : Sys ι :=
  let (m,mine) := acquire s.mutex i
  if mine then ({ s with mutex := m }.setStatus i .running).gain i
  else
    match c with
    | .lock => { s with mutex := { m with waiters := m.waiters++[i] } }.setStatus i .parked
    | .tryLock => { s with mutex := m }.setStatus i .running

def Sys.unlock (s : Sys ι) (i : ι) : Sys ι :=
  match release s.mutex with
  | (m,none) => { s with mutex := m }.lose i
  | (m,some th) => (({ s with mutex := m }.lose i).gain th).setStatus i (.waking th)

/-- A section has to wait while `waiter_lock` is taken; only a thread that has the mutex
unlocks. -/
def step (s : Sys ι) : Event ι → Option (Sys ι)
  | .call i c => if s.status i = .running then some (s.begin i c) else none
  | .init i =>
    match s.status i with
    | .initing c => some ({ s with mutex := finalInit s.mutex }.setStatus i (.entering c))
    | _ => none
  | .spin i =>
    match s.status i with
    | .spinning c =>
      if s.mutex.initState = .started then none else some (s.setStatus i (.entering c))
    | _ => none
  | .enter i =>
    match s.status i with
    | .entering c => if s.mutex.waiterLock then none else some (s.enter i c)
    | _ => none
  | .unlock i =>
    if s.status i = .running ∧ 0 < s.depth i ∧ s.mutex.waiterLock = false then some (s.unlock i)
    else none
  | .ready i =>
    match s.status i with
    | .waking th => some ((s.setStatus i .running).setStatus th .running)
    | _ => none

/-- The thread does not unlock a mutex that it has more than once. -/
def outermost (s : Sys ι) : Event ι → Prop
  | .unlock i => s.depth i ≤ 1
  | _ => True

instance (s : Sys ι) : (e : Event ι) → Decidable (outermost s e)
  | .unlock _ => Nat.decLe _ _
  | .call _ _ | .init _ | .spin _ | .enter _ | .ready _ => instDecidableTrue

/-- What holds between the calls: one owner, whose depth is counted, `waiter_lock` free, and no
waiter lost. -/
structure Sound (s : Sys ι) : Prop where
  owner : ∀ i,0 < s.depth i → s.mutex.holder = some i ∧ s.mutex.ref = s.depth i
  waiterLock : s.mutex.waiterLock = false
  kept : ∀ i,s.status i = .parked →
    i ∈ s.mutex.waiters ∨ 0 < s.depth i ∧ ∃ j,s.status j = .waking i

@[grind] def Status.Inits : Status ι → Prop
  | .initing _ => True
  | _ => False

/-- What thread `i` may rely on, if `w` is about to wake the owner and `b` initialises the mutex. -/
@[grind cases] structure Local (s : Sys ι) (w b : Option ι) (i : ι) : Prop where
  depth : 0 < s.depth i ↔ s.mutex.holder = some i
  ref : s.mutex.holder = some i → s.mutex.ref = s.depth i
  queued : i ∈ s.mutex.waiters ↔ s.status i = .parked ∧ s.mutex.holder ≠ some i
  wakes : ∀ th,s.status i = .waking th ↔ w = some i ∧ s.mutex.holder = some th
  handed : s.mutex.holder = some i → (s.status i = .parked ↔ w ≠ none)
  initing : (s.status i).Inits ↔ b = some i
  spinning : ∀ c,s.status i = .spinning c → s.mutex.initState ≠ .none
  entering : ∀ c,s.status i = .entering c → s.mutex.initState = .done

/-- The mutex itself. -/
@[grind cases] structure Shared (s : Sys ι) (w b : Option ι) : Prop where
  waiterLock : s.mutex.waiterLock = false
  held : s.mutex.held = 0 ↔ s.mutex.holder = none
  free : s.mutex.holder = none → s.mutex.ref = 0 ∧ s.mutex.waiters = [] ∧ w = none
  nodup : s.mutex.waiters.Nodup
  fresh : s.mutex.initState ≠ .done → s.mutex.holder = none
  started : s.mutex.initState = .started ↔ b ≠ none

structure Inv (s : Sys ι) (w b : Option ι) : Prop where
  shared : Shared s w b
  thread : ∀ i,Local s w b i

/-- A nested unlock has left `waiter_lock` taken: no section will run again. -/
@[grind cases] structure Stuck (s : Sys ι) : Prop where
  waiterLock : s.mutex.waiterLock = true
  initState : s.mutex.initState = .done
  initing : ∀ i c,s.status i ≠ .initing c

variable {s t : Sys ι} {i j : ι} {e : Event ι} {c : Call} {w b : Option ι}

omit [DecidableEq ι] in
theorem inv_init : Inv (Sys.init : Sys ι) none none := by
  refine ⟨?_,fun i => ?_⟩ <;> constructor <;> simp [Sys.init,reentrantMutexInit,Status.Inits]

omit [DecidableEq ι] in
theorem Inv.sound (h : Inv s w b) : Sound s where
  owner i hi := by
    have hloc := h.thread i
    exact ⟨hloc.depth.mp hi,hloc.ref (hloc.depth.mp hi)⟩
  waiterLock := h.shared.waiterLock
  kept i hi := by
    have hloc := h.thread i
    by_cases hh : s.mutex.holder = some i
    · obtain ⟨j,hj⟩ := Option.ne_none_iff_exists'.mp ((hloc.handed hh).mp hi)
      exact .inr ⟨hloc.depth.mpr hh,j,((h.thread j).wakes i).mpr ⟨hj,hh⟩⟩
    · exact .inl (hloc.queued.mpr ⟨hi,hh⟩)

/-! ### Steps that meet the condition -/

omit [DecidableEq ι] in
theorem Inv.goesTo (h : Inv s w b) (w' b' : Option ι) (hshared : Shared t w' b')
    (hthread : ∀ j,Local s w b j → Local t w' b' j) : ∃ w b,Inv t w b :=
  ⟨w',b',hshared,fun j => hthread j (h.thread j)⟩

theorem flagged_ne (v : BitVec 32) : v ||| waiterFlag ≠ 0 := by
  intro h0
  have h31 := congrArg (BitVec.getLsbD · 31) h0
  simp [waiterFlag] at h31

attribute [local grind =] Function.update_apply

theorem Inv.enter (h : Inv s w b) (hi : s.status i = .entering c) :
    ∃ w b,Inv (s.enter i c) w b := by
  have hs := h.shared
  have hloc := h.thread i
  have hflag := flagged_ne s.mutex.held
  simp only [Sys.enter,acquire,Sys.setStatus,Sys.gain]
  by_cases hmine : s.mutex.holder = some i
  · simp only [if_pos hmine,if_true]
    refine h.goesTo w b ?_ (fun j hj => ?_) <;> constructor
    all_goals grind -ring -order
  by_cases h0 : s.mutex.held = 0
  · simp only [if_neg hmine,if_pos h0,if_true]
    refine h.goesTo w b ?_ (fun j hj => ?_) <;> constructor
    all_goals grind -ring -order
  simp only [if_neg hmine,if_neg h0,Bool.false_eq_true,if_false]
  cases c with
  | tryLock =>
    refine h.goesTo w b ?_ (fun j hj => ?_) <;> constructor
    all_goals grind -ring -order
  | lock =>
    refine h.goesTo w b ?_ (fun j hj => ?_) <;> constructor
    all_goals grind -ring -order [List.nodup_append]

/-- An unlock by the thread that has the mutex once frees it or makes the first waiter its
owner. -/
theorem Inv.unlock (h : Inv s w b) (hi : s.status i = .running) (hone : s.depth i = 1) :
    ∃ w b,Inv (s.unlock i) w b := by
  have hs := h.shared
  have hloc := h.thread i
  have hone' : s.mutex.ref = 1 := by grind -ring -order
  simp only [Sys.unlock,release,Sys.setStatus,Sys.gain,Sys.lose]
  rw [if_neg (by simp [hone'])]
  cases hws : s.mutex.waiters with
  | nil =>
    simp only [List.head?_nil,List.tail_nil]
    refine h.goesTo none b ?_ (fun j hj => ?_) <;> constructor
    all_goals grind -ring -order
  | cons th ws =>
    have hth := h.thread th
    have hnodup := List.nodup_cons.mp (hws ▸ hs.nodup)
    simp only [List.head?_cons,List.tail_cons]
    refine h.goesTo (some i) b ?_ (fun j hj => ?_) <;> constructor
    all_goals grind -ring -order

theorem step_inv (h : Inv s w b) (hok : outermost s e) (hstep : step s e = some t) :
    ∃ w b,Inv t w b := by
  have hs := h.shared
  cases e with simp only [step,Sys.begin,Sys.setStatus] at hstep
  | call i c =>
    have hloc := h.thread i
    split_ifs at hstep with hi hinit <;> cases hstep
    · refine h.goesTo w (some i) ?_ (fun j hj => ?_) <;> constructor
      all_goals grind -ring -order
    · refine h.goesTo w b ?_ (fun j hj => ?_) <;> constructor
      all_goals grind -ring -order
  | init i =>
    have hloc := h.thread i
    split at hstep <;> cases hstep
    refine h.goesTo w none ?_ (fun j hj => ?_) <;> constructor
    all_goals grind -ring -order [finalInit]
  | spin i =>
    have hloc := h.thread i
    split at hstep <;> try cases hstep
    split_ifs at hstep with hinit
    cases hstep
    cases hdone : s.mutex.initState
    all_goals refine h.goesTo w b ?_ (fun j hj => ?_) <;> constructor
    all_goals grind -ring -order
  | enter i =>
    split at hstep <;> try cases hstep
    split_ifs at hstep
    cases hstep
    exact h.enter ‹_›
  | unlock i =>
    split_ifs at hstep with hi
    cases hstep
    exact h.unlock hi.1 (Nat.le_antisymm hok hi.2.1)
  | ready i =>
    have hloc := h.thread i
    split at hstep <;> cases hstep
    next th hi =>
      have hth := h.thread th
      refine h.goesTo none b ?_ (fun j hj => ?_) <;> constructor
      all_goals grind -ring -order

/-! ### Nested unlocks -/

theorem step_stuck_of_nested (h : Inv s w b) (hok : ¬outermost s e) (hstep : step s e = some t) :
    Stuck t := by
  cases e with
  | unlock i =>
    simp only [step] at hstep
    split_ifs at hstep with hi
    cases hstep
    have hdeep : 1 < s.depth i := by simpa [outermost] using hok
    obtain ⟨hh,hr⟩ := h.sound.owner i hi.2.1
    have hs := h.shared
    unfold Sys.unlock release
    rw [if_pos (by omega)]
    refine ⟨rfl,by grind -ring -order [Sys.lose],fun k d hk => ?_⟩
    have hk : s.status k = .initing d := hk
    have hb := (h.thread k).initing
    grind -ring -order
  | call | init | spin | enter | ready => exact absurd trivial hok

theorem step_stuck (h : Stuck s) (hstep : step s e = some t) : Stuck t := by
  cases e with simp only [step,Sys.begin,Sys.setStatus] at hstep
  | unlock => grind -ring -order
  | _ =>
    repeat' split at hstep
    all_goals cases hstep
    all_goals constructor <;> grind -ring -order

theorem run_stuck {es : List (Event ι)} (h : Stuck s) (hrun : Machine.run step s es = some t) :
    Stuck t :=
  Machine.run_keeps step_stuck h hrun

theorem run_sound_iff {es : List (Event ι)} (h : Inv s w b)
    (hrun : Machine.run step s es = some t) : Sound t ↔ Machine.Along step outermost s es := by
  induction es generalizing s w b with
  | nil =>
    cases hrun
    exact ⟨fun _ => trivial,fun _ => h.sound⟩
  | cons e es ih =>
    obtain ⟨u,hu,hrun⟩ := Option.bind_eq_some_iff.mp hrun
    by_cases hok : outermost s e
    · have hu : step s e = some u := hu
      simp only [Machine.Along,hu,Option.mem_some_iff,forall_eq',hok,true_and]
      obtain ⟨w,b,hnext⟩ := step_inv h hok hu
      exact ih hnext hrun
    · have hstuck := (run_stuck (step_stuck_of_nested h hok hu) hrun).waiterLock
      refine ⟨fun hs => ?_,fun halong => absurd halong.1 hok⟩
      simp [hs.waiterLock] at hstuck

/-- The mutex is sound in the states of exactly those runs in which no thread unlocks it while it
has it more than once. -/
theorem reentrant_sound_iff {es : List (Event ι)} (hrun : Machine.run step Sys.init es = some t) :
    Sound t ↔ Machine.Along step outermost Sys.init es :=
  run_sound_iff inv_init hrun

theorem reentrant_sound_iff_handOver :
    ∃ t ∈ Machine.run step (Sys.init : Sys (Fin 2)) [.call 0 .lock,.init 0,.enter 0,
        .call 1 .lock,.spin 1,.enter 1,.unlock 0,.ready 0,.call 1 .tryLock,.spin 1,.enter 1],
      t.depth 1 = 2 ∧ Sound t := by
  obtain ⟨t,ht,hd⟩ : ∃ t ∈ Machine.run step (Sys.init : Sys (Fin 2)) [.call 0 .lock,.init 0,
      .enter 0,.call 1 .lock,.spin 1,.enter 1,.unlock 0,.ready 0,.call 1 .tryLock,.spin 1,.enter 1],
      t.depth 1 = 2 := by decide +kernel
  exact ⟨t,ht,hd,(reentrant_sound_iff ht).mpr (by decide +kernel)⟩

/-- Thread 0 has the mutex twice and unlocks it once while thread 1 waits: thread 1 is in no list
any more, though the mutex is not its own, and `waiter_lock` stays taken. -/
theorem nested_unlock_drops_waiter :
    ∃ t ∈ Machine.run step (Sys.init : Sys (Fin 2)) [.call 0 .lock,.init 0,.enter 0,
        .call 0 .lock,.spin 0,.enter 0,.call 1 .lock,.spin 1,.enter 1,.unlock 0],
      t.depth 0 = 1 ∧ t.mutex.waiterLock = true ∧ t.status 1 = .parked ∧ t.mutex.waiters = [] ∧
        t.mutex.holder = some 0 ∧ t.status 0 = .running := by
  decide +kernel

/-! ### What the shim returns -/

def ebusy : ℤ := 16

/-- `__reentrant_mutex_try_lock` of a thread that gets to `waiter_lock`.  It returns 0 with the mutex
and 1 without. -/
def reentrantMutexTryLock (m : Mutex ι) (self : ι) : Option (Mutex ι × Bool) :=
  let m := if m.initState = .none then finalInit m else m
  if m.initState = .started ∨ m.waiterLock then none
  else
    let (m,mine) := acquire m self
    some (m,!mine)

/-- The shim takes the result for true on success. -/
def pthreadMutexTrylock (m : Mutex ι) (self : ι) : Option (Mutex ι × ℤ) :=
  (reentrantMutexTryLock m self).map fun (m,ret) => (m,if ret then 0 else ebusy)

/-- How often the thread has the mutex. -/
def Mutex.nesting (m : Mutex ι) (self : ι) : ℤ := if m.holder = some self then m.ref else 0

/-- The mutex belongs to the thread, once more than before. -/
def Gained (m m' : Mutex ι) (self : ι) : Prop :=
  m'.holder = some self ∧ m'.nesting self = m.nesting self+1

def Unchanged (m m' : Mutex ι) : Prop :=
  m'.holder = m.holder ∧ m'.ref = m.ref ∧ m'.waiters = m.waiters

def Truthful (m m' : Mutex ι) (self : ι) (ret : ℤ) : Prop :=
  (ret = 0 ↔ Gained m m' self) ∧ (ret = ebusy ↔ Unchanged m m')

section Trylock

variable {m m' : Mutex ι} {self : ι} {ret : ℤ}

theorem Gained.not_unchanged (h : Gained m m' self) : ¬Unchanged m m' := by
  rintro ⟨hholder,href,-⟩
  have hcount := h.2
  rw [Mutex.nesting,Mutex.nesting,← hholder,if_pos h.1,if_pos h.1,href] at hcount
  omega

theorem acquire_gained (h : (acquire m self).2 = true) : Gained m (acquire m self).1 self := by
  unfold acquire at h ⊢
  split_ifs at h ⊢ with hself hheld
  · simp [Gained,Mutex.nesting,hself]
  · simp [Gained,Mutex.nesting,hself]

theorem acquire_unchanged (h : (acquire m self).2 = false) : Unchanged m (acquire m self).1 := by
  unfold acquire at h ⊢
  split_ifs at h ⊢
  exact ⟨rfl,rfl,rfl⟩

theorem reentrantMutexTryLock_cases {b : Bool} (hm : m.initState = .none → m.holder = none)
    (h : reentrantMutexTryLock m self = some (m',b)) :
    b = false ∧ Gained m m' self ∨ b = true ∧ Unchanged m m' := by
  unfold reentrantMutexTryLock at h
  dsimp only at h
  split_ifs at h with hnone hwait hwait <;> cases h
  · -- a mutex that has just been initialised is free
    left
    refine ⟨by simp [acquire,finalInit],?_⟩
    simp [Gained,Mutex.nesting,acquire,finalInit,hm hnone]
  · cases hmine : (acquire m self).2 with
    | true => exact .inl ⟨rfl,acquire_gained hmine⟩
    | false => exact .inr ⟨rfl,acquire_unchanged hmine⟩

/-- EBUSY tells that the mutex was taken and 0 that it was not, in every state. -/
theorem trylock_inverted (hm : m.initState = .none → m.holder = none)
    (h : pthreadMutexTrylock m self = some (m',ret)) :
    (ret = ebusy ↔ Gained m m' self) ∧ (ret = 0 ↔ Unchanged m m') ∧ ¬Truthful m m' self ret := by
  obtain ⟨⟨_,b⟩,htry,heq⟩ := Option.map_eq_some_iff.mp h
  cases heq
  rcases reentrantMutexTryLock_cases hm htry with ⟨rfl,hgain⟩ | ⟨rfl,hsame⟩
  · have hchanged := hgain.not_unchanged
    simp [Truthful,hgain,hchanged,ebusy]
  · have hlost : ¬Gained m m' self := fun hgain => hgain.not_unchanged hsame
    simp [Truthful,hlost,hsame,ebusy]

theorem trylock_inverted_twice :
    ∃ m' ret,pthreadMutexTrylock ⟨1,false,[2],.done,1,some 7⟩ 7 = some (m',ret) ∧
      (ret = ebusy ↔ Gained ⟨1,false,[2],.done,1,some 7⟩ m' 7) ∧
      (ret = 0 ↔ Unchanged ⟨1,false,[2],.done,1,some 7⟩ m') ∧
      ¬Truthful ⟨1,false,[2],.done,1,some 7⟩ m' 7 ret :=
  ⟨_,_,rfl,trylock_inverted (by simp) rfl⟩

/-- A free mutex: the thread owns it and is told EBUSY.  The next thread is told that it has it. -/
theorem trylock_misreports :
    (∃ m',pthreadMutexTrylock reentrantMutexInit 7 = some (m',ebusy) ∧
      m'.holder = some 7 ∧ m'.ref = 1) ∧
    ∃ m',pthreadMutexTrylock ⟨1,false,[],.done,1,some 7⟩ 8 = some (m',0) ∧
      m'.holder = some 7 ∧ m'.ref = 1 :=
  ⟨⟨_,rfl,rfl,rfl⟩,⟨_,rfl,rfl,rfl⟩⟩

end Trylock

end ReentrantMutex
end Vessel
