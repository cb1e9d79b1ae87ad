import Mathlib.Data.List.Nodup
import Mathlib.Logic.Function.Basic
import Vessel.Machine

/-! The queue of the threads that wait for messages of a kthread's connections (`cxl/tqueue.h`): the
elements that `tq_wait` allocates, links and frees, and the walks of `rx_batch` and `tq_has_req`. -/
namespace Vessel

open Function
namespace Tqueue

/-- Where a thread is in `tq_wait`: it has its element, it has the lock, the element is linked, the
lock is released, the thread is off its stack, and it runs again. -/
inductive Pc
  | got
  | locked
  | linked
  | parking
  | parked
  | resumed
deriving DecidableEq

def Pc.waits : Pc → Bool
  | .linked | .parking | .parked => true
  | _ => false

/-- Where `rx_batch` is: not in its loop, about to look at the elements `rest`, or done with
`thread_ready` for an element that it has not yet unlinked. -/
inductive Walk (α : Type)
  | off
  | next (rest : List α)
  | unlink (te : α) (rest : List α)
deriving DecidableEq

inductive Holder (ι : Type)
  | waiter (i : ι)
  | batch
  | scan
deriving DecidableEq

/-- `live` are the elements that are allocated, `th` their threads.  `ready` is `thread_ready` of a
thread, and `readied` how often its present wait has set it.  `scan` is what is left of the walk of
`tq_has_req`. -/
structure Sys (ι α : Type) where
  lock : Option (Holder ι)
  waiters : List α
  live : α → Bool
  th : α → ι
  pc : ι → Option (Pc × α)
  ready : ι → Bool
  readied : ι → ℕ
  batch : Walk α
  scan : Option (List α)

def init {ι α : Type} (live : α → Bool) (th : α → ι) : Sys ι α :=
  ⟨none,[],live,th,fun _ => none,fun _ => false,fun _ => 0,.off,none⟩

inductive Event (ι α : Type)
  | alloc (i : ι) (te : α)
  | lock (i : ι)
  | link (i : ι)
  | unlock (i : ι)
  | park (i : ι)
  | resume (i : ι)
  | free (i : ι)
  | batchLock
  | batchSkip
  | batchReady
  | batchUnlink
  | batchUnlock
  | scanLock
  | scanNext
  | scanUnlock

variable {ι α : Type} [DecidableEq ι] [DecidableEq α]

/-- The thread that runs again. -/
def Event.resumes : Event ι α → Option ι
  | .resume i => some i
  | _ => none

/-- The next statement of thread `i`, which has to be at `p`, and what it does with its element. -/
def Sys.move (s : Sys ι α) (i : ι) (p q : Pc) (f : α → Sys ι α) : Option (Sys ι α) :=
  match s.pc i with
  | some (p',te) =>
    if p' = p then some { f te with pc := update s.pc i (some (q,te)) } else none
  | none => none

def step (s : Sys ι α) : Event ι α → Option (Sys ι α)
  | .alloc i te =>
    if s.pc i = none ∧ s.live te = false then
      some { s with
        pc := update s.pc i (some (.got,te)), live := update s.live te true,
        th := update s.th te i, readied := update s.readied i 0 }
    else none
  | .lock i =>
    if s.lock = none then s.move i .got .locked fun _ => { s with lock := some (.waiter i) } else none
  | .link i => s.move i .locked .linked fun te => { s with waiters := s.waiters++[te] }
  | .unlock i => s.move i .linked .parking fun _ => { s with lock := none }
  | .park i => s.move i .parking .parked fun _ => s
  | .resume i =>
    if s.ready i then
      s.move i .parked .resumed fun _ => { s with ready := update s.ready i false }
    else none
  | .free i =>
    match s.pc i with
    | some (.resumed,te) =>
      some { s with pc := update s.pc i none, live := update s.live te false }
    | _ => none
  | .batchLock =>
    if s.lock = none then some { s with lock := some .batch, batch := .next s.waiters } else none
  | .batchSkip =>
    match s.batch with
    | .next (_::rest) => some { s with batch := .next rest }
    | _ => none
  | .batchReady =>
    match s.batch with
    | .next (te::rest) =>
      some { s with
        ready := update s.ready (s.th te) true,
        readied := update s.readied (s.th te) (s.readied (s.th te)+1),
        batch := .unlink te rest }
    | _ => none
  | .batchUnlink =>
    match s.batch with
    | .unlink te rest => some { s with waiters := s.waiters.erase te, batch := .next rest }
    | _ => none
  | .batchUnlock =>
    match s.batch with
    | .next [] => some { s with lock := none, batch := .off }
    | _ => none
  | .scanLock =>
    if s.lock = none then some { s with lock := some .scan, scan := some s.waiters } else none
  | .scanNext =>
    match s.scan with
    | some (_::rest) => some { s with scan := some rest }
    | _ => none
  | .scanUnlock =>
    match s.scan with
    | some _ => some { s with lock := none, scan := none }
    | none => none

/-- The elements that are linked are allocated and of threads that park; those that are still to be
looked at are linked.  No thread is made ready twice in a wait, and one that runs again was made
ready and its element is not linked. -/
structure Safe (s : Sys ι α) : Prop where
  linked : ∀ te ∈ s.waiters, s.live te = true ∧ ∃ p, p.waits = true ∧ s.pc (s.th te) = some (p,te)
  batch : ∀ rest, s.batch = .next rest → rest ⊆ s.waiters
  scan : ∀ rest, s.scan = some rest → rest ⊆ s.waiters
  once : ∀ i, s.readied i ≤ 1
  resumed : ∀ i te, s.pc i = some (.resumed,te) → s.readied i = 1 ∧ te ∉ s.waiters

/-- The element that is still linked though its thread is ready. -/
def Walk.unlinking : Walk α → Option α
  | .unlink te _ => some te
  | _ => none

/-- No thread runs again before its element is unlinked. -/
def Unlinked (s : Sys ι α) (e : Event ι α) : Prop :=
  ∀ i ∈ e.resumes, ∀ te ∈ s.batch.unlinking, s.th te ≠ i

instance (s : Sys ι α) (e : Event ι α) : Decidable (Unlinked s e) :=
  inferInstanceAs (Decidable (∀ i ∈ e.resumes, ∀ te ∈ s.batch.unlinking, s.th te ≠ i))

def Walk.left : Walk α → List α
  | .off => []
  | .next rest => rest
  | .unlink te rest => te::rest

@[grind cases]
structure Inv (s : Sys ι α) : Prop where
  nodup : s.waiters.Nodup
  owns : ∀ i p te, s.pc i = some (p,te) → s.live te = true ∧ s.th te = i
  listed : ∀ i p te, s.pc i = some (p,te) →
    (te ∈ s.waiters ↔ p.waits = true ∧ (s.readied i = 0 ∨ s.batch.unlinking = some te))
  only : ∀ te ∈ s.waiters, ∃ p, s.pc (s.th te) = some (p,te)
  readied : ∀ i p te, s.pc i = some (p,te) →
    s.readied i = if p = .resumed ∨ s.ready i = true then 1 else 0
  ready : ∀ i, s.ready i = true → ∃ te, s.pc i = some (.parking,te) ∨ s.pc i = some (.parked,te)
  once : ∀ i, s.readied i ≤ 1
  unlink : ∀ te, s.batch.unlinking = some te → te ∈ s.waiters ∧ s.readied (s.th te) = 1
  left : s.batch.left <:+ s.waiters
  scan : ∀ rest, s.scan = some rest → rest ⊆ s.waiters
  holds : ∀ i p te, s.pc i = some (p,te) → p = .locked ∨ p = .linked → s.lock = some (.waiter i)
  holdsBatch : s.batch ≠ .off → s.lock = some .batch
  holdsScan : s.scan ≠ none → s.lock = some .scan

variable {s t : Sys ι α} {e : Event ι α}

omit [DecidableEq ι] [DecidableEq α] in
theorem Inv.safe (h : Inv s) : Safe s where
  linked te hte := by
    obtain ⟨p,hp⟩ := h.only te hte
    exact ⟨(h.owns _ p te hp).1,p,((h.listed _ p te hp).mp hte).1,hp⟩
  batch rest hrest := by
    have hleft := h.left
    rw [hrest] at hleft
    exact hleft.subset
  scan := h.scan
  once := h.once
  resumed i te hi := by
    have hr := h.readied i _ te hi
    have hl := h.listed i _ te hi
    simp_all [Pc.waits]

omit [DecidableEq α] in
theorem move_eq_some {i : ι} {p q : Pc} {f : α → Sys ι α} (h : s.move i p q f = some t) :
    ∃ te, s.pc i = some (p,te) ∧
      t = { f te with pc := update s.pc i (some (q,te)) } := by
  unfold Sys.move at h
  split at h
  · next p' te hpc =>
    obtain ⟨rfl,ht⟩ := Option.ite_none_right_eq_some.mp h
    exact ⟨te,hpc,(Option.some.inj ht).symm⟩
  · cases h

theorem Inv.alloc (h : Inv s) {i : ι} {te : α} (hpc : s.pc i = none) (hte : s.live te = false) :
    Inv { s with
      pc := update s.pc i (some (.got,te)), live := update s.live te true,
      th := update s.th te i, readied := update s.readied i 0 } := by
  have hnot : te ∉ s.waiters := fun hmem => by
    obtain ⟨p,hp⟩ := h.only te hmem
    simp [(h.owns _ p te hp).1] at hte
  constructor <;> grind -linarith [update_apply,Pc.waits]

omit [DecidableEq α] in
theorem Inv.link (h : Inv s) {i : ι} {te : α} (hpc : s.pc i = some (.locked,te)) :
    Inv { s with waiters := s.waiters++[te], pc := update s.pc i (some (.linked,te)) } := by
  have hlock := h.holds i _ te hpc (.inl rfl)
  have hbatch : s.batch = .off := by grind -linarith
  have hscan : s.scan = none := by grind -linarith
  have hnot : te ∉ s.waiters := by grind -linarith [Pc.waits]
  have hready : s.ready i = false := by grind -linarith
  constructor
  case nodup => simpa using List.nodup_append.mpr
                  ⟨h.nodup,List.nodup_singleton te,by grind -linarith⟩
  case left => simp [hbatch,Walk.left]
  all_goals grind -linarith [update_apply,Pc.waits]

theorem Inv.pass (h : Inv s) {i : ι} {p q : Pc} {te : α} {lock : Option (Holder ι)}
    (hpc : s.pc i = some (p,te)) (hwaits : q.waits = p.waits) (hp : p ≠ .resumed ∧ q ≠ .resumed)
    (hready : s.ready i = true → q = .parking ∨ q = .parked)
    (hlock : ∀ j, j ≠ i → s.lock = some (.waiter j) → lock = some (.waiter j))
    (hq : q = .locked ∨ q = .linked → lock = some (.waiter i))
    (hbatch : s.batch ≠ .off → lock = some .batch) (hscan : s.scan ≠ none → lock = some .scan) :
    Inv { s with lock := lock, pc := update s.pc i (some (q,te)) } := by
  constructor <;> grind -linarith [update_apply]

theorem Inv.resume (h : Inv s) {i : ι} {te : α} (hpc : s.pc i = some (.parked,te))
    (hready : s.ready i = true) (hok : ∀ te ∈ s.batch.unlinking, s.th te ≠ i) :
    Inv { s with
      ready := update s.ready i false, pc := update s.pc i (some (.resumed,te)) } := by
  constructor <;> grind -linarith [update_apply,Pc.waits]

theorem Inv.free (h : Inv s) {i : ι} {te : α} (hpc : s.pc i = some (.resumed,te)) :
    Inv { s with pc := update s.pc i none, live := update s.live te false } := by
  have hnot : te ∉ s.waiters := by grind -linarith [Pc.waits]
  constructor <;> grind -linarith [update_apply,Pc.waits]

theorem Inv.batchReady (h : Inv s) {te : α} {rest : List α} (hb : s.batch = .next (te::rest)) :
    Inv { s with
      ready := update s.ready (s.th te) true,
      readied := update s.readied (s.th te) (s.readied (s.th te)+1),
      batch := .unlink te rest } := by
  have hleft : te::rest <:+ s.waiters := by simpa [hb,Walk.left] using h.left
  have hnone : s.batch.unlinking = none := by rw [hb]; rfl
  have hte : te ∈ s.waiters := hleft.subset List.mem_cons_self
  obtain ⟨p,hp⟩ := h.only te hte
  have hlock : s.lock = some .batch := h.holdsBatch (by simp [hb])
  have hwaits : p = .parking ∨ p = .parked := by
    have hlist := ((h.listed _ p te hp).mp hte).1
    cases p <;> grind -linarith [Pc.waits]
  have hun : (Walk.unlink te rest).unlinking = some te := rfl
  constructor
  case left => exact hleft
  all_goals grind -linarith [update_apply,Pc.waits]

omit [DecidableEq ι] in
theorem Inv.batchUnlink (h : Inv s) {te : α} {rest : List α} (hb : s.batch = .unlink te rest) :
    Inv { s with waiters := s.waiters.erase te, batch := .next rest } := by
  have hleft : te::rest <:+ s.waiters := by simpa [hb,Walk.left] using h.left
  have hscan : s.scan = none := by grind -linarith
  have hnone : (Walk.next rest).unlinking = none := rfl
  have hun : s.batch.unlinking = some te := by rw [hb,Walk.unlinking]
  have hmem : ∀ te', te' ∈ s.waiters.erase te ↔ te' ≠ te ∧ te' ∈ s.waiters :=
    fun te' => h.nodup.mem_erase_iff
  constructor
  case nodup => exact h.nodup.erase te
  case left =>
    obtain ⟨pre,hpre⟩ := hleft
    have hnot : te ∉ pre := fun hmem => by
      have hnodup := h.nodup
      rw [← hpre] at hnodup
      exact (List.nodup_append.mp hnodup).2.2 te hmem te List.mem_cons_self rfl
    refine ⟨pre,?_⟩
    rw [← hpre,List.erase_append_right _ hnot,List.erase_cons_head,Walk.left]
  all_goals grind -linarith [Pc.waits]

omit [DecidableEq ι] [DecidableEq α] in
/-- What the walks do with the lock and with what they have left to look at. -/
theorem Inv.walk (h : Inv s) {lock : Option (Holder ι)} {batch : Walk α} {scan : Option (List α)}
    (hun : batch.unlinking = s.batch.unlinking) (hleft : batch.left <:+ s.waiters)
    (hscan : ∀ rest, scan = some rest → rest ⊆ s.waiters)
    (hold : ∀ i, s.lock = some (.waiter i) → lock = some (.waiter i))
    (hb : batch ≠ .off → lock = some .batch) (hs : scan ≠ none → lock = some .scan) :
    Inv { s with lock := lock, batch := batch, scan := scan } :=
  { h with
    listed := by simpa only [hun] using h.listed
    unlink := by simpa only [hun] using h.unlink
    left := hleft
    scan := hscan
    holds := fun i p te hi hp => hold i (h.holds i p te hi hp)
    holdsBatch := hb
    holdsScan := hs }

theorem step_inv (h : Inv s) (hs : step s e = some t) (hok : Unlinked s e) : Inv t := by
  cases e with
  | alloc i te =>
    obtain ⟨⟨hpc,hte⟩,hs⟩ := Option.ite_none_right_eq_some.mp hs
    cases hs
    exact h.alloc hpc hte
  | link i =>
    obtain ⟨te,hpc,rfl⟩ := move_eq_some hs
    exact h.link hpc
  | resume i =>
    obtain ⟨hready,hs⟩ := Option.ite_none_right_eq_some.mp hs
    obtain ⟨te,hpc,rfl⟩ := move_eq_some hs
    exact h.resume hpc hready (hok i rfl)
  | free i =>
    simp only [step] at hs
    split at hs
    · next te hpc =>
      cases hs
      exact h.free hpc
    · cases hs
  | batchReady =>
    simp only [step] at hs
    split at hs
    · next te rest hb =>
      cases hs
      exact h.batchReady hb
    · cases hs
  | batchUnlink =>
    simp only [step] at hs
    split at hs
    · next te rest hb =>
      cases hs
      exact h.batchUnlink hb
    · cases hs
  | lock i =>
    obtain ⟨hlock,hs⟩ := Option.ite_none_right_eq_some.mp hs
    obtain ⟨te,hpc,rfl⟩ := move_eq_some hs
    have hready := h.ready i
    apply h.pass hpc <;> grind -linarith [h.holdsBatch,h.holdsScan,Pc.waits]
  | unlock i =>
    obtain ⟨te,hpc,rfl⟩ := move_eq_some hs
    have hlock := h.holds i _ te hpc (.inr rfl)
    apply h.pass hpc <;> grind -linarith [h.holdsBatch,h.holdsScan,Pc.waits]
  | park i =>
    obtain ⟨te,hpc,rfl⟩ := move_eq_some hs
    apply h.pass hpc <;> grind -linarith [h.holdsBatch,h.holdsScan,Pc.waits]
  | batchLock =>
    obtain ⟨hlock,hs⟩ := Option.ite_none_right_eq_some.mp hs
    cases hs
    have hscan := h.holdsScan
    have hbatch := h.holdsBatch
    apply h.walk <;> grind -linarith [Walk.unlinking,Walk.left]
  | batchSkip =>
    simp only [step] at hs
    split at hs
    · next te rest hb =>
      cases hs
      have hleft : te::rest <:+ s.waiters := by simpa [hb,Walk.left] using h.left
      have hbatch := h.holdsBatch (by simp [hb])
      exact h.walk (by rw [hb]; rfl) ((List.suffix_cons te rest).trans hleft) h.scan
        (fun _ hi => hi) (fun _ => hbatch) h.holdsScan
    · cases hs
  | batchUnlock =>
    simp only [step] at hs
    split at hs
    · next hb =>
      cases hs
      have hbatch := h.holdsBatch (by simp [hb])
      have hscan := h.holdsScan
      apply h.walk <;> grind -linarith [Walk.unlinking,Walk.left]
    · cases hs
  | scanLock =>
    obtain ⟨hlock,hs⟩ := Option.ite_none_right_eq_some.mp hs
    cases hs
    have hbatch := h.holdsBatch
    apply h.walk <;> grind -linarith [Walk.unlinking,Walk.left,h.left]
  | scanNext =>
    simp only [step] at hs
    split at hs
    · next te rest hb =>
      cases hs
      have hscan := h.scan _ hb
      have hlock := h.holdsScan (by simp [hb])
      have hleft := h.left
      have hbatch := h.holdsBatch
      apply h.walk <;> grind -linarith
    · cases hs
  | scanUnlock =>
    simp only [step] at hs
    split at hs
    · next rest hb =>
      cases hs
      have hlock := h.holdsScan (by simp [hb])
      have hleft := h.left
      have hbatch := h.holdsBatch
      apply h.walk <;> grind -linarith
    · cases hs

omit [DecidableEq ι] [DecidableEq α] in
theorem inv_init (live : α → Bool) (th : α → ι) : Inv (init live th) := by
  constructor <;> simp [init,Walk.left,Walk.unlinking]

/-- A thread that runs again while its element is linked is no longer parked. -/
theorem Safe.unlinked (h : Inv s) (hs : step s e = some t) (ht : Safe t) : Unlinked s e := by
  cases e with
  | resume i =>
    rintro _ ⟨⟩ te hte rfl
    obtain ⟨hready,hs⟩ := Option.ite_none_right_eq_some.mp hs
    obtain ⟨te',hpc,rfl⟩ := move_eq_some hs
    obtain ⟨-,p,hp,hpc'⟩ := ht.linked te (h.unlink te hte).1
    simp only [update_self,Option.some.injEq,Prod.mk.injEq] at hpc'
    simp [← hpc'.1,Pc.waits] at hp
  | _ => rintro _ ⟨⟩

/-- All states of a run are safe just if no thread in it runs again between `thread_ready` and the
unlinking of its element. -/
theorem waiters_safe_iff (live : α → Bool) (th : α → ι) {es : List (Event ι α)}
    (h : Machine.run step (init live th) es = some t) :
    (∀ fs u, fs <+: es → Machine.run step (init live th) fs = some u → Safe u) ↔
      Machine.Along step Unlinked (init live th) es :=
  Machine.all_iff_along Inv.safe step_inv Safe.unlinked (inv_init live th) h

theorem waiters_safe_iff_wait : ∃ s ∈ Machine.run step (init (fun _ : ℕ => false) fun _ => (0 : ℕ))
    [.alloc 0 5,.lock 0,.link 0,.unlock 0,.batchLock,.batchReady,.park 0,.batchUnlink,.batchUnlock,
      .resume 0,.free 0], (s.waiters = [] ∧ s.readied 0 = 1) ∧ Safe s := by
  obtain ⟨s,hs,hend⟩ : ∃ s ∈ Machine.run step (init (fun _ : ℕ => false) fun _ => (0 : ℕ))
      [.alloc 0 5,.lock 0,.link 0,.unlock 0,.batchLock,.batchReady,.park 0,.batchUnlink,
        .batchUnlock,.resume 0,.free 0], s.waiters = [] ∧ s.readied 0 = 1 := by
    decide
  exact ⟨s,hs,hend,(waiters_safe_iff _ _ hs).mpr (by decide) _ s (List.prefix_refl _) hs⟩

/-- A wait whose thread runs on another core before `rx_batch` goes on: its element is freed while it
is linked. -/
theorem waiter_freed_linked : ∃ s ∈ Machine.run step (init (fun _ : ℕ => false) fun _ => (0 : ℕ))
    [.alloc 0 5,.lock 0,.link 0,.unlock 0,.park 0,.batchLock,.batchReady,.resume 0,.free 0],
    s.waiters = [5] ∧ s.live 5 = false ∧ s.batch = .unlink 5 [] := by
  decide

end Tqueue
end Vessel
