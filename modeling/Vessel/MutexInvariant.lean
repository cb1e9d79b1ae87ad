import Vessel.Mutex

/-! Mutual exclusion, hand-over in order and no lost waiter, for every interleaving.
Each thread is at a place of its code.  The words say who has the mutex and who has the spin
lock; a thread that is parked is in the list of waiters, or the mutex is its own and it is
being woken. -/
namespace Vessel.Mutex

open Prog Function

/-! ### Where a thread is -/

/-- The places in the code between two operations on shared memory. -/
inductive Place (ι : Type)
  | idle
  | locking
  | trying
  | got
  | want
  | locked
  | claimed
  | wrote
  | joining
  | joined
  | parked
  | releasing
  | releaseWant
  | releaseLocked
  | clearing
  | cleared
  | handing (th : ι)
  | waking (th : ι)

structure View (ι : Type) where
  place : Place ι
  inside : Bool

namespace Place

variable {ι : Type}

/-- The thread holds the spin lock. -/
@[grind] def locks : Place ι → Bool
  | locked | claimed | wrote | joining | joined | releaseLocked | clearing | cleared | handing _ => true
  | _ => false

/-- The thread took the mutex itself, or has not given it up. -/
@[grind] def keeps : Place ι → Bool
  | got | claimed | wrote | releasing | releaseWant | releaseLocked | clearing => true
  | _ => false

/-- The thread is in `mutex_unlock` and still has the mutex. -/
def leaves : Place ι → Bool
  | releasing | releaseWant | releaseLocked | clearing => true
  | _ => false

/-- The waiter that the thread is about to wake. -/
@[grind] def wakes : Place ι → Option ι
  | handing th | waking th => some th
  | _ => none

@[grind] def isParked : Place ι → Bool
  | parked => true
  | _ => false

/-- The one operation that comes next. -/
def may (self : ι) : Place ι → Op ι → Prop
  | locking, op | trying, op => op = .cmpxchg 0 1
  | want, op | releaseWant, op => op = .spinLock
  | locked, op => op = .fetchAndOr waiterFlag
  | claimed, op => op = .write 1
  | joining, op => op = .listAddTail self
  | joined, op | wrote, op | cleared, op | handing _, op => op = .spinUnlock
  | parked, op => op = .park self
  | releasing, op => op = .cmpxchg 1 0
  | releaseLocked, op => op = .listPop
  | clearing, op => op = .write 0
  | waking th, op => op = .threadReady th
  | _, _ => False

def after : Place ι → (op : Op ι) → Res op → Place ι
  | locking, .cmpxchg _ _, ok => if ok then got else want
  | trying, .cmpxchg _ _, ok => if ok then got else idle
  | want, _, _ => locked
  | locked, .fetchAndOr _, held => if held = 0 then claimed else joining
  | claimed, _, _ => wrote
  | wrote, _, _ => got
  | joining, _, _ => joined
  | joined, _, _ => parked
  | parked, _, _ => got
  | releasing, .cmpxchg _ _, ok => if ok then idle else releaseWant
  | releaseWant, _, _ => releaseLocked
  | releaseLocked, .listPop, th => th.elim clearing handing
  | clearing, _, _ => cleared
  | cleared, _, _ => idle
  | handing th, _, _ => waking th
  | _, _, _ => idle

end Place

section Invariant

variable {ι : Type} [DecidableEq ι]

/-- `held` while a thread has the mutex and the flag is set. -/
def contended : BitVec 32 := waiterFlag ||| 1

/-- The waiter that has the mutex and has not gone on with it. -/
def late (waiters : List ι) (gs : ι → View ι) : Option ι → List ι
  | some i => if (gs i).place.isParked ∧ i ∉ waiters then [i] else []
  | none => []

/-- The waiter that has the mutex and has not been made ready. -/
def due (o : Option ι) : Option ι → List ι
  | some _ => o.toList
  | none => []

/-- What memory and history say, if thread `o` has the mutex. -/
structure Shared (m : Mem ι) (t : Trace ι) (gs : ι → View ι) (o l w : Option ι) : Prop where
  spin : m.waiterLock = l.isSome
  free : o = none → m.held = 0
  flag : m.waiters ≠ [] → m.held = contended
  nodup : m.waiters.Nodup
  handed_to : w ≠ none → o ≠ none
  order : enqueued t = handed t ++ m.waiters
  passed : handed t = obtained t ++ late m.waiters gs o
  woken : handed t = woken t ++ due o w
  waking : waker t = w

/-- What thread `i` may rely on: the mutex belongs to `o` and the spin lock to `l`, and `w` is about
to wake the thread that has the mutex. -/
@[grind cases] structure Local (m : Mem ι) (t : Trace ι) (o l w : Option ι) (i : ι) (g : View ι) :
    Prop where
  locks : g.place.locks = true ↔ l = some i
  keeps : g.place.keeps = true ∨ g.inside = true → o = some i
  has : o = some i → g.place.keeps = true ∨ g.inside = true ∨ g.place = .parked
  held : o = some i → m.held = 1 ∨ m.held = contended ∨ g.place = .claimed
  claimed : g.place = .claimed → m.held = waiterFlag
  joining : g.place = .joining → m.held = contended
  clearing : g.place = .clearing → m.waiters = []
  queued : i ∈ m.waiters → g.place = .joined ∨ g.place = .parked
  joined : g.place = .joined → i ∈ m.waiters
  parked : g.place = .parked → i ∈ m.waiters ∨ o = some i
  wakes : ∀ th, g.place.wakes = some th ↔ w = some i ∧ o = some th
  ready : m.ready i = true ↔ g.place = .parked ∧ i ∉ m.waiters ∧ o = some i ∧ w = none
  sleeps : o = some i → w ≠ none → g.place = .parked ∧ i ∉ m.waiters
  owned : owns i t = true ↔ o = some i
  within : inside i t = g.inside

structure Inv (m : Mem ι) (t : Trace ι) (gs : ι → View ι) (o l w : Option ι) : Prop
    extends Shared m t gs o l w where
  thread : ∀ i, Local m t o l w i (gs i)

/-- Thread `i` is at `p` now. -/
def moved (gs : ι → View ι) (i : ι) (p : Place ι) : ι → View ι :=
  update gs i { gs i with place := p }

@[grind =] theorem moved_apply (gs : ι → View ι) (i : ι) (p : Place ι) (j : ι) :
    moved gs i p j = if j = i then { gs i with place := p } else gs j := by
  by_cases h : j = i
  · subst h
    simp [moved]
  · simp [moved,h]

/-- The longer history says the same about the waiters. -/
structure Quiet (t t' : Trace ι) : Prop where
  enqueued : enqueued t' = enqueued t
  handed : handed t' = handed t
  obtained : obtained t' = obtained t
  woken : woken t' = woken t
  waker : waker t' = waker t

section Steps

variable {m m' : Mem ι} {t t' : Trace ι} {gs : ι → View ι} {o o' l l' w w' : Option ι} {i : ι}
  {g : View ι} {p q : Place ι}

theorem late_update {ws : List ι}
    (h : o = some i → i ∈ ws ∨ g.place.isParked = (gs i).place.isParked) :
    late ws (update gs i g) o = late ws gs o := by
  cases o with
  | none => rfl
  | some j => grind -ring -order -linarith [late]

namespace Inv

theorem unowned (h : Inv m t gs o l w) (h0 : m.held = 0) : o = none := by
  cases ho : o with
  | none => rfl
  | some j =>
    have hne : (0 : BitVec 32) ≠ 1 ∧ (0 : BitVec 32) ≠ contended ∧ (0 : BitVec 32) ≠ waiterFlag := by
      decide
    have := h.thread j
    grind -ring -order -linarith -ext

theorem no_waiters (h : Inv m t gs o l w) (h0 : m.held ≠ contended) : m.waiters = [] := by
  by_contra hne
  exact h0 (h.flag hne)

/-- Thread `i` does a step, and what the others rely on stays. -/
theorem step (h : Inv m t gs o l w) (hs : Shared m' t' (update gs i g) o' l' w')
    (hj : ∀ j, Local m t o l w j (gs j) → Local m' t' o' l' w' j (if j = i then g else gs j)) :
    Inv m' t' (update gs i g) o' l' w' where
  toShared := hs
  thread j := by
    rw [update_apply]
    exact hj j (h.thread j)

theorem quiet (h : Inv m t gs o l w) (hw : m'.waiters = m.waiters) (hq : Quiet t t')
    (hlate : late m.waiters (update gs i g) o' = late m.waiters gs o)
    (hspin : m'.waiterLock = l'.isSome) (hfree : o' = none → m'.held = 0)
    (hflag : m.waiters ≠ [] → m'.held = contended) (hwaker : w ≠ none → o' = o)
    (hj : ∀ j, Local m t o l w j (gs j) → Local m' t' o' l' w j (if j = i then g else gs j)) :
    Inv m' t' (update gs i g) o' l' w := by
  have hdue : due o' w = due o w := by
    cases w with
    | none => rfl
    | some j => rw [hwaker nofun]
  refine h.step ⟨hspin,hfree,hw ▸ hflag,hw ▸ h.nodup,fun hw => hwaker hw ▸ h.handed_to hw,?_,?_,?_,?_⟩
    hj
  · rw [hq.enqueued,hq.handed,hw,h.order]
  · rw [hq.handed,hq.obtained,hw,hlate,h.passed]
  · rw [hq.handed,hq.woken,hdue,h.woken]
  · rw [hq.waker,h.waking]

theorem stay (h : Inv m t gs o l w) (hq : Quiet t t')
    (hlate : o = some i → i ∈ m.waiters ∨ g.place.isParked = (gs i).place.isParked)
    (hj : ∀ j, Local m t o l w j (gs j) → Local m t' o l w j (if j = i then g else gs j)) :
    Inv m t' (update gs i g) o l w :=
  h.quiet rfl hq (late_update hlate) h.spin h.free h.flag (fun _ => rfl) hj

/-- A free mutex is taken: by a compare and swap, or under the spin lock with the flag first. -/
theorem acquire {v : BitVec 32} (h : Inv m t gs o l w) (hp : (gs i).place = .locking ∧ q = .got ∨
    (gs i).place = .trying ∧ q = .got ∨ (gs i).place = .locked ∧ q = .claimed) (h0 : m.held = 0)
    (hv : q = .got ∧ v = 1 ∨ q = .claimed ∧ v = waiterFlag) (hq : Quiet t t')
    (howns : ∀ j, owns j t' = true ↔ j = i ∨ owns j t = true) (hin : ∀ j, inside j t' = inside j t) :
    Inv { m with held := v } t' (moved gs i q) (some i) l w := by
  obtain rfl := h.unowned h0
  have hw : w = none := by
    have := h.handed_to
    grind -ring -order -linarith
  have hne : (0 : BitVec 32) ≠ contended ∧ (0 : BitVec 32) ≠ waiterFlag := by decide
  have hempty := h.no_waiters (by grind -ring -order -linarith)
  have hi := h.thread i
  refine h.quiet rfl hq (by simp [late]; grind -ring -order -linarith) h.spin nofun (absurd hempty)
    (by grind -ring -order -linarith) fun j hj => ?_
  by_cases hji : j = i <;> constructor <;> grind -ring -order -linarith -ext

theorem setFlag (h : Inv m t gs o l w) (hp : (gs i).place = .locked) (h0 : m.held ≠ 0) :
    Inv { m with held := m.held ||| waiterFlag } (.act i (.fetchAndOr waiterFlag) m.held::t)
      (moved gs i .joining) o l w := by
  have hi := h.thread i
  have hheld : m.held ||| waiterFlag = contended := by
    cases ho : o with
    | none => exact absurd (h.free ho) h0
    | some j =>
      have hj := h.thread j
      rcases hj.held ho with heq | heq | heq
      · rw [heq]; decide
      · rw [heq]; decide
      · grind -ring -order -linarith
  rw [hheld]
  refine h.quiet rfl ⟨rfl,rfl,rfl,rfl,rfl⟩ (late_update (by grind -ring -order -linarith)) h.spin
    (fun hn => absurd (h.free hn) h0)
    (fun _ => rfl) (fun _ => rfl) fun j hj => ?_
  by_cases hji : j = i <;> constructor <;> grind -ring -order -linarith -ext [owns,inside]

theorem write (h : Inv m t gs o l w) (hp : (gs i).place = .claimed) :
    Inv { m with held := 1 } (.act i (.write 1) ()::t) (moved gs i .wrote) o l w := by
  have hne : waiterFlag ≠ contended := by decide
  have hi := h.thread i
  have hempty := h.no_waiters (by grind -ring -order -linarith)
  refine h.quiet rfl ⟨rfl,rfl,rfl,rfl,rfl⟩ (late_update (by grind -ring -order -linarith)) h.spin
    (by grind -ring -order -linarith) (absurd hempty) (fun _ => rfl) fun j hj => ?_
  by_cases hji : j = i <;> constructor <;> grind -ring -order -linarith -ext [owns,inside]

theorem append (h : Inv m t gs o l w) (hp : (gs i).place = .joining) :
    Inv { m with waiters := m.waiters ++ [i] } (.act i (.listAddTail i) ()::t)
      (moved gs i .joined) o l w := by
  have hi := h.thread i
  have hlate : late (m.waiters ++ [i]) (moved gs i .joined) o = late m.waiters gs o := by
    cases o with
    | none => rfl
    | some j => grind -ring -order -linarith [late]
  refine h.step ⟨h.spin,h.free,fun _ => hi.joining hp,?_,h.handed_to,?_,hlate ▸ h.passed,h.woken,
    h.waking⟩ fun j hj => ?_
  · simpa [List.nodup_append,h.nodup] using fun a ha => ne_of_mem_of_not_mem ha
      (by grind -ring -order -linarith)
  · change enqueued t ++ [i] = handed t ++ (m.waiters ++ [i])
    rw [h.order,List.append_assoc]
  · by_cases hji : j = i <;> constructor <;> grind -ring -order -linarith -ext [owns,inside]

theorem resume (h : Inv m t gs o l w) (hp : (gs i).place = .parked) (hready : m.ready i = true) :
    Inv { m with ready := update m.ready i false } (.act i (.park i) ()::t)
      (moved gs i .got) o l w := by
  have hi := h.thread i
  have ho : o = some i := by grind -ring -order -linarith
  have hlast := h.passed
  refine h.step ⟨h.spin,h.free,h.flag,h.nodup,h.handed_to,h.order,?_,h.woken,h.waking⟩
    fun j hj => ?_
  · have hout : i ∉ m.waiters := by grind -ring -order -linarith
    rw [ho] at hlast ⊢
    simpa [late,hp,hout,Place.isParked,moved,handed,obtained] using hlast
  · by_cases hji : j = i <;> constructor <;> grind -ring -order -linarith -ext [owns,inside]

theorem lock (h : Inv m t gs o l w) (hp : (gs i).place = .want ∧ q = .locked ∨
    (gs i).place = .releaseWant ∧ q = .releaseLocked) (hfree : m.waiterLock = false) :
    Inv { m with waiterLock := true } (.act i .spinLock ()::t) (moved gs i q) o (some i) w := by
  have hl : l = none := by simpa [hfree] using h.spin
  have hi := h.thread i
  refine h.quiet rfl ⟨rfl,rfl,rfl,rfl,rfl⟩ (late_update (by grind -ring -order -linarith)) rfl h.free
    h.flag (fun _ => rfl) fun j hj => ?_
  by_cases hji : j = i <;> constructor <;> grind -ring -order -linarith -ext [owns,inside]

theorem unlock (h : Inv m t gs o l w) (hp : (gs i).place = .wrote ∧ q = .got ∨
    (gs i).place = .cleared ∧ q = .idle ∨ (gs i).place = .joined ∧ q = .parked ∨
      ∃ th, (gs i).place = .handing th ∧ q = .waking th) :
    Inv { m with waiterLock := false } (.act i .spinUnlock ()::t) (moved gs i q) o none w := by
  have hi := h.thread i
  have hown : l = some i := by
    rw [← hi.locks]
    rcases hp with ⟨hp,-⟩ | ⟨hp,-⟩ | ⟨hp,-⟩ | ⟨th,hp,-⟩ <;> rw [hp] <;> rfl
  refine h.quiet rfl ⟨rfl,rfl,rfl,rfl,rfl⟩ (late_update (by grind -ring -order -linarith)) rfl h.free
    h.flag (fun _ => rfl) fun j hj => ?_
  by_cases hji : j = i <;> constructor <;> grind -ring -order -linarith -ext [owns,inside]

/-- `held` becomes 0: by a compare and swap, or under the spin lock when nobody waits. -/
theorem release (h : Inv m t gs o l w) (hp : (gs i).place = .releasing ∧ m.held = 1 ∧ q = .idle ∨
    (gs i).place = .clearing ∧ q = .cleared) (hout : (gs i).inside = false) (hq : Quiet t t')
    (howns : ∀ j, owns j t' = true ↔ j ≠ i ∧ owns j t = true) (hin : ∀ j, inside j t' = inside j t) :
    Inv { m with held := 0 } t' (moved gs i q) none l w := by
  have hne : (1 : BitVec 32) ≠ contended ∧ (1 : BitVec 32) ≠ waiterFlag := by decide
  have hi := h.thread i
  have ho : o = some i := by grind -ring -order -linarith
  have hw : w = none := by
    cases hw : w with
    | none => rfl
    | some j => grind -ring -order -linarith
  have hempty : m.waiters = [] := by
    have := h.flag
    grind -ring -order -linarith
  refine h.quiet rfl hq ?_ h.spin (fun _ => rfl) (absurd hempty) (by grind -ring -order -linarith)
    fun j hj => ?_
  · rw [ho]
    simp [late]
    grind -ring -order -linarith
  · by_cases hji : j = i <;> constructor <;> grind -ring -order -linarith -ext

theorem pop {th : ι} {rest : List ι} (h : Inv m t gs o l w) (hp : (gs i).place = .releaseLocked)
    (hout : (gs i).inside = false) (hrest : m.waiters = th::rest) :
    Inv { m with waiters := rest } (.act i .listPop (some th)::t) (moved gs i (.handing th))
      (some th) l (some i) := by
  have hi := h.thread i
  have hth := h.thread th
  obtain ⟨hnot,hnodup⟩ := List.nodup_cons.mp (hrest ▸ h.nodup)
  have ho : o = some i := by grind -ring -order -linarith
  have hpth : (gs th).place = .parked := by grind -ring -order -linarith
  have hheld := h.flag (by simp [hrest])
  have hpassed : handed t = obtained t := by
    simpa [ho,late,hp,Place.isParked] using h.passed
  have hw : w = none := by
    cases hw : w with
    | none => rfl
    | some j => grind -ring -order -linarith
  have hwoken : handed t = woken t := by simpa [hw,due] using h.woken
  refine h.step ⟨h.spin,nofun,fun _ => hheld,hnodup,nofun,?_,?_,?_,rfl⟩ fun j hj => ?_
  · change enqueued t = handed t ++ [th] ++ rest
    rw [h.order,hrest,List.append_assoc]
    rfl
  · change handed t ++ [th] = obtained t ++ late rest (moved gs i (.handing th)) (some th)
    have hne : th ≠ i := by grind -ring -order -linarith
    simp [hpassed,late,moved,hne,hpth,hnot,Place.isParked]
  · change handed t ++ [th] = woken t ++ [th]
    rw [hwoken]
  · by_cases hji : j = i <;> constructor <;> grind -ring -order -linarith -ext [owns,inside]

theorem wake {th : ι} (h : Inv m t gs o l w) (hp : (gs i).place = .waking th) :
    Inv { m with ready := update m.ready th true } (.act i (.threadReady th) ()::t)
      (moved gs i .idle) o l none := by
  have hi := h.thread i
  have hth := h.thread th
  have hw : w = some i ∧ o = some th := by grind -ring -order -linarith
  have hlate : late m.waiters (moved gs i .idle) o = late m.waiters gs o :=
    late_update (by grind -ring -order -linarith)
  refine h.step ⟨h.spin,h.free,h.flag,h.nodup,nofun,h.order,?_,?_,rfl⟩ fun j hj => ?_
  · change handed t = obtained t ++ late m.waiters (moved gs i .idle) o
    rw [hlate]
    exact h.passed
  · change handed t = woken t ++ [th] ++ []
    rw [List.append_nil,h.woken,hw.1,hw.2]
    rfl
  · by_cases hji : j = i <;> constructor <;> grind -ring -order -linarith -ext [owns,inside]

theorem move (h : Inv m t gs o l w) (hp : (gs i).place = .locking ∧ q = .want ∨
    (gs i).place = .trying ∧ q = .idle ∨ (gs i).place = .releasing ∧ q = .releaseWant ∨
      (gs i).place = .releaseLocked ∧ q = .clearing ∧ m.waiters = []) (hq : Quiet t t')
    (howns : ∀ j, owns j t' = owns j t) (hin : ∀ j, inside j t' = inside j t) :
    Inv m t' (moved gs i q) o l w := by
  have hi := h.thread i
  refine h.stay hq (by grind -ring -order -linarith) fun j hj => ?_
  by_cases hji : j = i <;> constructor <;> grind -ring -order -linarith -ext

theorem call {b : Bool} (h : Inv m t gs o l w) (hp : (gs i).place = .idle ∨ (gs i).place = .got)
    (hq : q = .idle ∨ q = .locking ∨ q = .trying ∨ q = .releasing)
    (hown : q = .releasing ∨ b = true ↔ o = some i) (hquiet : Quiet t t')
    (howns : ∀ j, owns j t' = owns j t) (hin : ∀ j, inside j t' = if j = i then b else inside j t) :
    Inv m t' (update gs i ⟨q,b⟩) o l w := by
  have hi := h.thread i
  refine h.stay hquiet (by grind -ring -order -linarith) fun j hj => ?_
  by_cases hji : j = i <;> constructor <;> grind -ring -order -linarith -ext

theorem act {op : Op ι} {r : Res op} (h : Inv m t gs o l w)
    (hout : (gs i).place.leaves = true → (gs i).inside = false) (hmay : (gs i).place.may i op)
    (hsem : exec op m = some (r,m')) :
    ∃ o l w, Inv m' (.act i op r::t) (moved gs i ((gs i).place.after op r)) o l w := by
  cases hp : (gs i).place with (rw [hp] at hmay hout)
  | idle | got => exact hmay.elim
  | locking | trying =>
    obtain rfl := hmay
    simp only [exec] at hsem
    split at hsem <;> cases hsem
    · exact ⟨_,_,_,h.acquire (by simp [hp,Place.after]) (by assumption) (by simp [Place.after])
        ⟨rfl,rfl,rfl,rfl,rfl⟩ (fun j => by grind -ring -order -linarith [owns]) fun _ => rfl⟩
    · exact ⟨_,_,_,h.move (by simp [hp,Place.after]) ⟨rfl,rfl,rfl,rfl,rfl⟩ (fun _ => rfl) fun _ => rfl⟩
  | want | releaseWant =>
    obtain rfl := hmay
    simp only [exec] at hsem
    split at hsem <;> cases hsem
    exact ⟨_,_,_,h.lock (by simp [hp,Place.after]) (eq_false_of_ne_true (by assumption))⟩
  | locked =>
    obtain rfl := hmay
    cases hsem
    by_cases h0 : m.held = 0
    · simp only [Place.after,if_pos h0]
      refine ⟨_,_,_,h.acquire (by simp [hp]) h0 (.inr ⟨rfl,?_⟩) ⟨rfl,rfl,rfl,rfl,rfl⟩
        (fun j => by grind -ring -order -linarith [owns]) fun _ => rfl⟩
      rw [h0]
      decide
    · simp only [Place.after,if_neg h0]
      exact ⟨_,_,_,h.setFlag hp h0⟩
  | claimed =>
    obtain rfl := hmay
    cases hsem
    exact ⟨_,_,_,h.write hp⟩
  | wrote | cleared | joined | handing =>
    obtain rfl := hmay
    cases hsem
    exact ⟨_,_,_,h.unlock (by simp [hp,Place.after])⟩
  | joining =>
    obtain rfl := hmay
    cases hsem
    exact ⟨_,_,_,h.append hp⟩
  | parked =>
    obtain rfl := hmay
    simp only [exec] at hsem
    split at hsem <;> cases hsem
    exact ⟨_,_,_,h.resume hp (by assumption)⟩
  | releasing =>
    obtain rfl := hmay
    simp only [exec] at hsem
    split at hsem <;> cases hsem
    · exact ⟨_,_,_,h.release (.inl ⟨hp,by assumption,rfl⟩) (hout rfl) ⟨rfl,rfl,rfl,rfl,rfl⟩
        (fun j => by grind -ring -order -linarith [owns]) fun _ => rfl⟩
    · exact ⟨_,_,_,h.move (by simp [hp,Place.after]) ⟨rfl,rfl,rfl,rfl,rfl⟩ (fun _ => rfl) fun _ => rfl⟩
  | releaseLocked =>
    obtain rfl := hmay
    cases hsem
    cases hw : m.waiters with
    | nil =>
      have hm : { m with waiters := [] } = m := by rw [← hw]
      refine ⟨o,l,w,?_⟩
      rw [List.tail_nil,hm]
      exact h.move (by simp [hp,hw,Place.after]) ⟨rfl,rfl,rfl,rfl,rfl⟩ (fun _ => rfl) fun _ => rfl
    | cons th rest => exact ⟨_,_,_,h.pop hp (hout rfl) hw⟩
  | clearing =>
    obtain rfl := hmay
    cases hsem
    exact ⟨_,_,_,h.release (.inr ⟨hp,rfl⟩) (hout rfl) ⟨rfl,rfl,rfl,rfl,rfl⟩
      (fun j => by grind -ring -order -linarith [owns]) fun _ => rfl⟩
  | waking th =>
    obtain rfl := hmay
    cases hsem
    exact ⟨_,_,_,h.wake hp⟩

end Inv
end Steps

/-! ### Every run -/

section Outline

variable {m : Mem ι} {t : Trace ι} {gs : ι → View ι} {o l w : Option ι} {i : ι}

/-- A thread does what its place says; one that unlocks is no longer inside. -/
def rules (i : ι) : Rules (View ι) (Op ι) Res where
  may g op := g.place.may i op ∧ (g.place.leaves = true → g.inside = false)
  next g op r g' := g' = { g with place := g.place.after op r }

/-- Between calls a thread knows whether it is inside. -/
def rest (s : Bool) (g : View ι) : Prop := g = ⟨.idle,s⟩

/-- What a call leaves: a call that took the mutex has it. -/
def post : Call → Bool → Bool → View ι → Prop
  | .lock, _, s, g => s = true ∧ g.place = .got
  | .tryLock, ok, s, g => if ok then s = true ∧ g.place = .got else g = ⟨.idle,s⟩
  | .unlock, _, s, g => s = false ∧ g = ⟨.idle,false⟩

section Calls

variable {s : Bool} {g : View ι}

omit [DecidableEq ι] in
theorem rules_step {op : Op ι} {P : Res op → View ι → Prop} (hmay : g.place.may i op)
    (hout : g.place.leaves = true → g.inside = false)
    (h : ∀ r, P r { g with place := g.place.after op r }) :
    (rules i).may g op ∧ ∀ r g', (rules i).next g op r g' → P r g' := by
  refine ⟨⟨hmay,hout⟩,?_⟩
  rintro r _ rfl
  exact h r

omit [DecidableEq ι] in
theorem mutexLockInternal_obeys {R : Unit → Bool → View ι → Prop} {b : Bool}
    (hR : R () s ⟨.got,b⟩) : (mutexLockInternal i).Obeys (rules i) R s ⟨.want,b⟩ := by
  simp only [mutexLockInternal,threadParkAndUnlock,obeys_bind,obeys_tell,obeys_perform,obeys_ite]
  refine rules_step rfl (by rintro ⟨⟩) fun _ => rules_step rfl (by rintro ⟨⟩) fun held =>
    ⟨fun h0 => ?_,fun h0 => ?_⟩
  · simp only [Place.after,if_pos h0]
    exact rules_step rfl (by rintro ⟨⟩) fun _ => rules_step rfl (by rintro ⟨⟩) fun _ => hR
  · simp only [Place.after,if_neg h0]
    exact rules_step rfl (by rintro ⟨⟩) fun _ => rules_step rfl (by rintro ⟨⟩) fun _ =>
      rules_step rfl (by rintro ⟨⟩) fun _ => hR

omit [DecidableEq ι] in
theorem mutexUnlockInternal_obeys {R : Unit → Bool → View ι → Prop} (hR : R () s ⟨.idle,false⟩) :
    mutexUnlockInternal.Obeys (rules i) R s ⟨.releaseWant,false⟩ := by
  simp only [mutexUnlockInternal,obeys_bind,obeys_tell,obeys_perform]
  refine rules_step rfl (fun _ => rfl) fun _ => rules_step rfl (fun _ => rfl) fun th => ?_
  cases th with
  | none => exact rules_step rfl (fun _ => rfl) fun _ => rules_step rfl (by rintro ⟨⟩) fun _ => hR
  | some th =>
    exact rules_step rfl (by rintro ⟨⟩) fun _ => rules_step rfl (by rintro ⟨⟩) fun _ => hR

omit [DecidableEq ι] in
theorem lock_obeys {b : Bool} :
    (body i .lock).Obeys (rules i) (post .lock) s ⟨.locking,b⟩ := by
  simp only [body,mutexLock,obeys_bind,obeys_perform,obeys_ite,obeys_update,obeys_pure]
  refine ⟨⟨rfl,by rintro ⟨⟩⟩,?_⟩
  rintro ok _ rfl
  cases ok with
  | true => exact ⟨fun _ => ⟨rfl,rfl⟩,fun h => absurd rfl h⟩
  | false => exact ⟨by rintro ⟨⟩,fun _ => mutexLockInternal_obeys ⟨rfl,rfl⟩⟩

omit [DecidableEq ι] in
theorem tryLock_obeys :
    (body i .tryLock).Obeys (rules i) (post .tryLock) s ⟨.trying,s⟩ := by
  simp only [body,mutexTryLock,obeys_bind,obeys_update,obeys_pure]
  refine ⟨⟨rfl,by rintro ⟨⟩⟩,?_⟩
  rintro ok _ rfl
  cases ok with
  | true => exact ⟨Bool.or_true s,rfl⟩
  | false => exact congrArg (View.mk .idle) (Bool.or_false s).symm

omit [DecidableEq ι] in
theorem unlock_obeys :
    (body i .unlock).Obeys (rules i) (post .unlock) s ⟨.releasing,false⟩ := by
  simp only [body,mutexUnlock,obeys_bind,obeys_perform,obeys_ite,obeys_update,obeys_pure]
  refine ⟨⟨rfl,fun _ => rfl⟩,?_⟩
  rintro ok _ rfl
  cases ok with
  | true => exact ⟨fun _ => ⟨rfl,rfl⟩,fun h => absurd rfl h⟩
  | false => exact ⟨by rintro ⟨⟩,fun _ => mutexUnlockInternal_obeys ⟨rfl,rfl⟩⟩

end Calls

/-- A call ends: one that took the mutex has it. -/
theorem Inv.done {c : Call} {v : Bool} (h : Inv m t gs o l w) (hpost : post c v s (gs i)) :
    Inv m (.done i c v::t) (update gs i ⟨.idle,s⟩) o l w := by
  have hi := h.thread i
  refine h.call ?_ (.inl rfl) ?_ ⟨rfl,rfl,rfl,rfl,rfl⟩ (fun _ => rfl) fun j => ?_
  all_goals cases c with
    | lock | unlock => grind -ring -order -linarith [post,inside]
    | tryLock => cases v <;> grind -ring -order -linarith [post,inside]

variable (ι) in
def mutexOutline : Outline (mutex ι) fun _ => View ι where
  rules := rules
  inv m t gs := ∃ o l w, Inv m t gs o l w
  rest _ := rest
  post _ := post
  start := by
    rintro m t gs i s c ⟨o,l,w,h⟩ hrest hallowed
    have hi := h.thread i
    rw [hrest] at hi
    have hp : (gs i).place = .idle := by rw [hrest]
    cases c with
    | lock =>
      exact ⟨⟨.locking,s⟩,
        ⟨o,l,w,h.call (.inl hp) (by simp) (by grind -ring -order -linarith) ⟨rfl,rfl,rfl,rfl,rfl⟩
          (fun _ => rfl) fun j => by grind -ring -order -linarith [inside]⟩,lock_obeys⟩
    | tryLock =>
      exact ⟨⟨.trying,s⟩,
        ⟨o,l,w,h.call (.inl hp) (by simp) (by grind -ring -order -linarith) ⟨rfl,rfl,rfl,rfl,rfl⟩
          (fun _ => rfl) fun j => by grind -ring -order -linarith [inside]⟩,tryLock_obeys⟩
    | unlock =>
      have hown := hi.keeps (.inr (hallowed rfl))
      exact ⟨⟨.releasing,false⟩,⟨o,l,w,h.call (.inl hp) (by simp) (by simpa using hown)
        ⟨rfl,rfl,rfl,rfl,rfl⟩ (fun _ => rfl) fun j => by grind -ring -order -linarith [inside]⟩,unlock_obeys⟩
  act := by
    rintro m t gs i op r m' ⟨o,l,w,h⟩ ⟨hmay,hout⟩ hsem
    exact ⟨_,rfl,h.act hout hmay hsem⟩
  done := by
    rintro m t gs i s c v ⟨o,l,w,h⟩ hpost
    exact ⟨⟨.idle,s⟩,⟨o,l,w,h.done hpost⟩,rfl⟩

end Outline

theorem mutexInit_covered : (mutexOutline ι).Covers mutexInit := by
  refine ⟨fun _ => ⟨.idle,false⟩,⟨none,none,none,⟨?_,fun i => ?_⟩⟩,fun _ => rfl⟩
  · constructor <;> simp [mutexInit,late,due,enqueued,handed,obtained,woken,waker]
  · constructor <;> simp [mutexInit,owns,inside,Place.locks,Place.keeps,Place.wakes]

/-- At most one thread has the mutex: between its calls to lock and to unlock, and else only inside a
call.  The mutex is handed to waiters in the order in which they joined, and they are made ready and
go on in that order; a waiter that was handed the mutex is ready or gone on, or the thread that
handed it over is still in its call.  A parked thread is in the list, or the mutex is its own and it
is ready or about to be made so.  While the spin lock is free and somebody waits, `held` is not 0 and
some thread has the mutex. -/
theorem mutex_safe {c : MutexConfig ι} (hr : (mutex ι).Reach mutexInit c) :
    (∀ i j, owns i c.trace = true → owns j c.trace = true → i = j) ∧
    (∀ i, inside i c.trace = true → owns i c.trace = true) ∧
    (∀ i, owns i c.trace = true → (c.thr i).run = none → inside i c.trace = true) ∧
    enqueued c.trace = handed c.trace ++ c.mem.waiters ∧
    obtained c.trace <+: woken c.trace ∧
    (handed c.trace = woken c.trace ∨ ∃ j th, waker c.trace = some j ∧ (c.thr j).run.isSome ∧
      handed c.trace = woken c.trace ++ [th]) ∧
    (∀ i call k, (c.thr i).run = some (call,.act (.park i) k) → i ∈ c.mem.waiters ∨
      owns i c.trace = true ∧ (c.mem.ready i = true ∨ (waker c.trace).isSome)) ∧
    (c.mem.waiters ≠ [] → c.mem.waiterLock = false →
      c.mem.held ≠ 0 ∧ ∃ i, owns i c.trace = true) := by
  obtain ⟨gs,⟨o,l,w,h⟩,htrack⟩ := Outline.covers mutexInit_covered hr
  -- a thread between calls is at no other place
  have hidle : ∀ i, (c.thr i).run = none → gs i = ⟨.idle,(c.thr i).priv⟩ := fun i hi => by
    have hrest := htrack i
    simp only [Outline.OnTrack,hi] at hrest
    exact hrest
  refine ⟨fun i j hi hj => ?_,fun i hi => ?_,fun i hi hrun => ?_,h.order,?_,?_,
    fun i call k hrun => ?_,fun hne _ => ?_⟩
  · have hi := (h.thread i).owned.mp hi
    have hj := (h.thread j).owned.mp hj
    exact Option.some.inj (hi.symm.trans hj)
  · rw [(h.thread i).within] at hi
    exact (h.thread i).owned.mpr ((h.thread i).keeps (.inr hi))
  · have hhas := (h.thread i).has ((h.thread i).owned.mp hi)
    rw [hidle i hrun] at hhas
    rw [(h.thread i).within,hidle i hrun]
    simpa [Place.keeps] using hhas
  · cases hw : w with
    | none => exact ⟨_,(h.passed.symm.trans h.woken).trans (by rw [hw,due,List.append_nil])⟩
    | some j =>
      obtain ⟨i,ho⟩ := Option.ne_none_iff_exists'.mp (h.handed_to (by simp [hw]))
      obtain ⟨hpark,hout⟩ := (h.thread i).sleeps ho (by simp [hw])
      have hlate := h.passed
      rw [h.woken,hw,ho] at hlate
      have hsame : woken c.trace = obtained c.trace := by
        simpa [late,due,hpark,hout,Place.isParked] using hlate
      exact ⟨[],by rw [List.append_nil,hsame]⟩
  · cases hw : w with
    | none => exact .inl (h.woken.trans (by rw [hw,due,List.append_nil]))
    | some j =>
      obtain ⟨i,ho⟩ := Option.ne_none_iff_exists'.mp (h.handed_to (by simp [hw]))
      refine .inr ⟨j,i,h.waking.trans hw,?_,h.woken.trans (by rw [hw,ho]; rfl)⟩
      by_contra hrun
      have hwakes := ((h.thread j).wakes i).mpr ⟨hw,ho⟩
      rw [hidle j (Option.not_isSome_iff_eq_none.mp hrun)] at hwakes
      cases hwakes
  · have hpark : (gs i).place = .parked := by
      have hobeys := htrack i
      simp only [Outline.OnTrack,hrun] at hobeys
      have hmay : (gs i).place.may i (.park i) := hobeys.1.1
      cases hp : (gs i).place <;> first | rfl | (rw [hp] at hmay; cases hmay)
    have hi := h.thread i
    rw [h.waking]
    rcases hi.parked hpark with hin | ho
    · exact .inl hin
    · by_cases hin : i ∈ c.mem.waiters
      · exact .inl hin
      · refine .inr ⟨hi.owned.mpr ho,?_⟩
        cases hw : w with
        | none => exact .inl (hi.ready.mpr ⟨hpark,hin,ho,hw⟩)
        | some j => exact .inr rfl
  · have hheld : c.mem.held ≠ 0 := by
      rw [h.flag hne]
      decide
    cases ho : o with
    | none => exact absurd (h.free ho) hheld
    | some i => exact ⟨hheld,i,(h.thread i).owned.mpr ho⟩

end Invariant

theorem exec_sem {ι : Type} [DecidableEq ι] (op : Op ι) (m : Mem ι) (a : Res op × Mem ι)
    (h : exec op m = some a) : (mutex ι).sem op m a.1 a.2 := h

/-- Of two waiters the first one was handed the mutex, and the thread that unlocks has not made it
ready yet. -/
theorem mutex_safe_contended : ∃ c : MutexConfig (Fin 3), (mutex (Fin 3)).Reach mutexInit c ∧
    c.mem.waiters = [2] ∧ woken c.trace = [] ∧ c.mem.held ≠ 0 ∧ (∃ i, owns i c.trace = true) ∧
      ∃ j th, waker c.trace = some j ∧ (c.thr j).run.isSome ∧ handed c.trace = [th] := by
  have hrun : ((mutex (Fin 3)).schedule exec ([.inl ⟨0,.lock⟩] ++ List.replicate 4 (.inr 0) ++
      [.inl ⟨1,.lock⟩] ++ List.replicate 5 (.inr 1) ++ [.inl ⟨2,.lock⟩] ++
      List.replicate 5 (.inr 2) ++ [.inl ⟨0,.unlock⟩] ++ List.replicate 6 (.inr 0)) mutexInit).map
      (fun c => (c.mem.waiters,c.mem.waiterLock,handed c.trace,woken c.trace)) =
      some ([2],false,[1],[]) := by decide +kernel
  obtain ⟨c,hc,heq⟩ := Option.map_eq_some_iff.mp hrun
  simp only [Prod.mk.injEq] at heq
  obtain ⟨hw,hl,hhanded,hwoken⟩ := heq
  have hreach := Threads.schedule_reach exec_sem _ hc
  obtain ⟨-,-,-,-,-,hdue,-,hheld⟩ := mutex_safe hreach
  obtain ⟨hheld,howner⟩ := hheld (by rw [hw]; simp) hl
  refine ⟨c,hreach,hw,hwoken,hheld,howner,?_⟩
  simpa [hwoken] using hdue.resolve_left (by simp [hhanded,hwoken])

end Vessel.Mutex
