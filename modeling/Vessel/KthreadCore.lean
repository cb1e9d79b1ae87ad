import Vessel.Machine
import Mathlib.Logic.Function.Basic
import Mathlib.Tactic.SplitIfs

/-! The core a kthread takes itself to be on (`kthread.c`).  A kthread that attaches asks for its
core once it runs; one that parks asks before it yields, and the iokernel may resume it elsewhere
(`csched.c` takes the cluster that the iokernel names for the core). -/
namespace Vessel

open Function
namespace KthreadCore

/-- Where a kthread is in `kthread_wait_to_attach` and `kthread_yield_to_iokernel`; `s` is the core
that it read there. -/
inductive Pos where
  | waiting
  | woken (core : ℕ)
  | running (core : ℕ)
  | yielding (s : ℕ)
  | resumed (s core : ℕ)
  deriving DecidableEq

/-- `curr_cpu` and `recent_kthread`, and the kthread that each core executes. -/
structure Sys where
  pos : ℕ → Pos
  currCpu : ℕ → ℕ
  recentKthread : ℕ → Option ℕ
  executes : ℕ → Option ℕ

def Sys.init : Sys := ⟨fun _ => .waiting,fun _ => 0,fun _ => none,fun _ => none⟩

def Sys.setPos (w : Sys) (k : ℕ) (p : Pos) : Sys := { w with pos := update w.pos k p }

/-- `csched` switches to kthread `k` on `core`, which was free, or away from it. -/
def Sys.switch (w : Sys) (core : ℕ) (k : Option ℕ) : Sys :=
  { w with executes := update w.executes core k }

/-- `k->curr_cpu = s` and the `store_release`. -/
def Sys.note (w : Sys) (k s : ℕ) : Sys :=
  { w with
    currCpu := update w.currCpu k s
    recentKthread := update w.recentKthread s (some k) }

/-- The iokernel resumes a kthread on a core, or the kthread goes on: it stores its core after
`vessel_cluster_mwait`, yields, and yields again or stores its core after the yield. -/
inductive Event where
  | resume (k core : ℕ)
  | attach (k : ℕ)
  | yield (k : ℕ)
  | yieldAgain (k : ℕ)
  | finish (k : ℕ)

def step (w : Sys) : Event → Option Sys
  | .resume k core =>
    if w.executes core = none then
      match w.pos k with
      | .waiting => some ((w.switch core (some k)).setPos k (.woken core))
      | .yielding s => some ((w.switch core (some k)).setPos k (.resumed s core))
      | _ => none
    else none
  | .attach k =>
    match w.pos k with
    | .woken core => some ((w.note k core).setPos k (.running core))
    | _ => none
  | .yield k =>
    match w.pos k with
    | .running core => some ((w.switch core none).setPos k (.yielding core))
    | _ => none
  -- preempted while yielding
  | .yieldAgain k =>
    match w.pos k with
    | .resumed s core => some ((w.switch core none).setPos k (.yielding s))
    | _ => none
  | .finish k =>
    match w.pos k with
    | .resumed s core => some ((w.note k s).setPos k (.running core))
    | _ => none

/-- Every kthread outside of these functions knows its core, and its core knows it. -/
def Knows (w : Sys) : Prop :=
  ∀ k core,w.pos k = .running core → w.currCpu k = core ∧ w.recentKthread core = some k

/-- A park ends on the core on which it began. -/
def InPlace (w : Sys) : Event → Prop
  | .finish k => ∀ s core,w.pos k = .resumed s core → s = core
  | _ => True

def Pos.core : Pos → Option ℕ
  | .woken core | .running core | .resumed _ core => some core
  | _ => none

structure Placed (w : Sys) : Prop where
  knows : Knows w
  executes : ∀ k core,(w.pos k).core = some core → w.executes core = some k

variable {w u : Sys} {e : Event} {k : ℕ}

theorem placed_init : Placed .init := ⟨nofun,nofun⟩

theorem Placed.free (h : Placed w) {core : ℕ} (hfree : w.executes core = none) :
    ∀ j ≠ k,(w.pos j).core ≠ some core := by
  intro j _ hj
  rw [h.executes j core hj] at hfree
  cases hfree

theorem Placed.alone (h : Placed w) {core : ℕ} (hk : (w.pos k).core = some core) :
    ∀ j ≠ k,(w.pos j).core ≠ some core := by
  intro j hjk hj
  exact hjk (Option.some.inj ((h.executes j core hj).symm.trans (h.executes k core hk)))

theorem placed_switch (h : Placed w) {core : ℕ} {o : Option ℕ} {p : Pos}
    (hcore : ∀ j ≠ k,(w.pos j).core ≠ some core) (hp : ∀ c,p ≠ .running c)
    (ho : ∀ c,p.core = some c → c = core ∧ o = some k) : Placed ((w.switch core o).setPos k p) := by
  refine ⟨fun j c hj => ?_,fun j c hj => ?_⟩ <;> by_cases hjk : j = k <;>
    simp only [Sys.setPos,Sys.switch,hjk,update_self,ne_eq,not_false_eq_true,
      update_of_ne] at hj ⊢
  · exact absurd hj (hp c)
  · exact h.knows j c hj
  · obtain ⟨rfl,rfl⟩ := ho c hj
    exact update_self ..
  · have hne : c ≠ core := by
      rintro rfl
      exact hcore j hjk hj
    rw [update_of_ne hne]
    exact h.executes j c hj

theorem placed_note (h : Placed w) {core : ℕ} (hk : (w.pos k).core = some core) :
    Placed ((w.note k core).setPos k (.running core)) := by
  refine ⟨fun j c hj => ?_,fun j c hj => ?_⟩ <;> by_cases hjk : j = k <;>
    simp only [Sys.setPos,Sys.note,hjk,update_self,ne_eq,not_false_eq_true,
      update_of_ne] at hj ⊢
  · obtain rfl := Pos.running.inj hj
    exact ⟨rfl,update_self ..⟩
  · obtain ⟨hcpu,hrecent⟩ := h.knows j c hj
    have hne : c ≠ core := by
      rintro rfl
      exact h.alone hk j hjk (by rw [hj]; rfl)
    exact ⟨hcpu,by rwa [update_of_ne hne]⟩
  · obtain rfl := Option.some.inj hj
    exact h.executes k core hk
  · exact h.executes j c hj

theorem placed_step (h : Placed w) (hu : step w e = some u) (hin : InPlace w e) : Placed u := by
  cases e with
  | resume k core =>
    simp only [step] at hu
    split_ifs at hu with hfree
    split at hu <;> cases hu <;>
      exact placed_switch h (h.free hfree) (by simp) (by simp [Pos.core,eq_comm])
  | attach k =>
    simp only [step] at hu
    split at hu <;> cases hu
    rename_i core hpos
    exact placed_note h (by rw [hpos]; rfl)
  | yield k =>
    simp only [step] at hu
    split at hu <;> cases hu
    rename_i core hpos
    exact placed_switch h (h.alone (by rw [hpos]; rfl)) (by simp) (by simp [Pos.core])
  | yieldAgain k =>
    simp only [step] at hu
    split at hu <;> cases hu
    rename_i s core hpos
    exact placed_switch h (h.alone (by rw [hpos]; rfl)) (by simp) (by simp [Pos.core])
  | finish k =>
    simp only [step] at hu
    split at hu <;> cases hu
    rename_i s core hpos
    obtain rfl := hin s core hpos
    exact placed_note h (by rw [hpos]; rfl)

/-- A park that ends elsewhere leaves the kthread with the wrong core. -/
theorem inPlace_of_knows (hu : step w e = some u) (hknows : Knows u) : InPlace w e := by
  cases e with
  | finish k =>
    intro s core hpos
    simp only [step,hpos,Option.some.injEq] at hu
    subst hu
    simpa [Sys.setPos,Sys.note] using (hknows k core (by simp [Sys.setPos])).1
  | resume | attach | yield | yieldAgain => trivial

/-- All kthreads know their cores throughout a run just if every park in it ends where it began. -/
theorem core_known_iff {es : List Event} (hu : Machine.run step .init es = some u) :
    (∀ fs v,fs <+: es → Machine.run step .init fs = some v → Knows v) ↔
      Machine.Along step InPlace .init es :=
  Machine.all_iff_along Placed.knows placed_step (fun _ => inPlace_of_knows) placed_init hu

def parked (k core : ℕ) : List Event :=
  [.resume k 0,.attach k,.yield k,.resume k 1,.yieldAgain k,.resume k core,.finish k]

instance (w : Sys) : (e : Event) → Decidable (InPlace w e)
  | .finish k => match h : w.pos k with
    | .resumed s core => decidable_of_iff (s = core) (by simp [InPlace,h])
    | .waiting | .woken _ | .running _ | .yielding _ => isTrue (by simp [InPlace,h])
  | .resume _ _ | .attach _ | .yield _ | .yieldAgain _ => instDecidableTrue

theorem core_known_iff_in_place :
    ∃ v ∈ Machine.run step .init (parked 0 0),v.pos 0 = .running 0 ∧ Knows v := by
  obtain ⟨v,hv,hpos⟩ : ∃ v ∈ Machine.run step .init (parked 0 0),v.pos 0 = .running 0 := by
    decide +kernel
  exact ⟨v,hv,hpos,(core_known_iff hv).mpr (by decide +kernel) _ v List.prefix_rfl hv⟩

/-- The kthread parks on core 0 and is resumed on core 1. -/
theorem core_not_known : ∃ v ∈ Machine.run step .init (parked 0 1),
    v.pos 0 = .running 1 ∧ v.currCpu 0 = 0 ∧ v.recentKthread 1 = none := by
  decide +kernel

end KthreadCore
end Vessel
