import Vessel.Bitmap
import Vessel.Tally
import Mathlib.Data.BitVec
import Mathlib.Data.Fintype.Basic
import Mathlib.Data.Prod.Lex
import Mathlib.Order.OrderIsoNat
import Mathlib.Tactic.Linarith
import Mathlib.Tactic.Ring

/-! Preemption in the interference-aware policy (`iokernel/ias.c`).
A process that takes a core from another one of its class brings the two closer together, a
latency-critical process takes cores from best-effort ones, and anybody takes an idle core; so the
cores cannot be passed around for ever. -/
namespace Vessel.IasPreempt

open Finset Tally Function

/-- What does not change of `struct ias_data`. -/
structure Task (ι : Type) where
  isLc : Bool
  threadsGuaranteed : BitVec 32
  reservedCores : ι → Bool

/-- `cores`, `ias_gen`, `ias_idle_cores`, and the counts and times of the processes. -/
structure State (K ι : Type) where
  cores : ι → Option K
  gen : ι → BitVec 64
  idleCores : ι → Bool
  threadsActive : K → BitVec 32
  locLastUs : K → ι → BitVec 64

/-- `now_us`, and what the scheduler layer says: `sched_threads_avail` and whether
`sched_run_on_core` succeeds. -/
structure Env where
  nowUs : BitVec 64
  threadsAvail : ℕ
  runs : Bool

section Model

variable {K ι : Type} [DecidableEq K] [DecidableEq ι]

/-- How many cores a process has above its guarantee, as an `int`. -/
def burst (task : K → Task ι) (s : State K ι) (k : K) : BitVec 32 :=
  s.threadsActive k - (task k).threadsGuaranteed

def iasCanPreemptCore (task : K → Task ι) (s : State K ι) (sd : K) (core : ι) : Bool :=
  match s.cores core with
  | none => true
  | some cur =>
    if sd = cur then false
    else if (task cur).reservedCores core then false
    else if (task cur).isLc && !(task sd).isLc then false
    else if (task cur).isLc == (task sd).isLc &&
        (burst task s cur).sle (burst task s sd + 1) then false
    else true

def iasCleanupCore (nowUs : BitVec 64) (s : State K ι) (core : ι) : State K ι :=
  match s.cores core with
  | none => { s with cores := update s.cores core none }
  | some sd =>
    { s with
      cores := update s.cores core none
      locLastUs := update s.locLastUs sd (update (s.locLastUs sd) core nowUs)
      threadsActive := update s.threadsActive sd (s.threadsActive sd - 1) }

/-- The flag says whether it returned 0. -/
def iasRunKthreadOnCore (env : Env) (s : State K ι) (sd : K) (core : ι) : State K ι × Bool :=
  if env.threadsAvail = 0 then (s,false)
  else if !env.runs then (s,false)
  else
    let s := iasCleanupCore env.nowUs s core
    ({ s with
       cores := update s.cores core (some sd)
       gen := update s.gen core (s.gen core + 1)
       idleCores := update s.idleCores core false
       threadsActive := update s.threadsActive sd (s.threadsActive sd + 1) },true)

/-- `ias_choose_core`, where `score` stands for `ias_core_score`, `lowest` for its first value and
`allowed` for the table of allowed cores. -/
def iasChooseCore {R : Type} [LT R] [DecidableLT R] (task : K → Task ι) (s : State K ι)
    (lowest : R) (score : ι → R) (sd : K) (allowed : List ι) : Option ι :=
  (allowed.foldl (fun (best : R × Option ι) core =>
    if !iasCanPreemptCore task s sd core then best
    else if best.1 < score core then (score core,some core) else best) (lowest,none)).2

end Model

/-! ### One step -/

section Step

variable {K ι : Type} [DecidableEq K] [DecidableEq ι] {task : K → Task ι} {s t : State K ι}
  {sd cur : K} {core : ι} {env : Env}

omit [DecidableEq ι] in
theorem canPreempt_iff (hcur : s.cores core = some cur) :
    iasCanPreemptCore task s sd core = true ↔
      sd ≠ cur ∧ (task cur).reservedCores core = false ∧
      ((task cur).isLc = false ∧ (task sd).isLc = true ∨
        (task cur).isLc = (task sd).isLc ∧
          (burst task s cur).sle (burst task s sd + 1) = false) := by
  rw [iasCanPreemptCore,hcur]
  dsimp only
  by_cases hne : sd = cur
  · simp [hne]
  generalize (burst task s cur).sle (burst task s sd + 1) = b
  cases (task cur).reservedCores core <;> cases (task cur).isLc <;> cases (task sd).isLc <;>
    simp [hne]

theorem run_failed (h : (iasRunKthreadOnCore env s sd core).2 = false) :
    (iasRunKthreadOnCore env s sd core).1 = s := by
  unfold iasRunKthreadOnCore at h ⊢
  split
  · rfl
  split
  · rfl
  · simp_all

theorem run_cores (h : iasRunKthreadOnCore env s sd core = (t,true)) :
    t.cores = update s.cores core (some sd) := by
  unfold iasRunKthreadOnCore iasCleanupCore at h
  split at h
  · simp at h
  split at h
  · simp at h
  rw [Prod.mk.injEq] at h
  obtain ⟨rfl,-⟩ := h
  cases s.cores core <;> simp

theorem run_active_free (h : iasRunKthreadOnCore env s sd core = (t,true))
    (hcur : s.cores core = some cur) (hne : sd ≠ cur) :
    t.threadsActive = update (update s.threadsActive cur
      (s.threadsActive cur - 1)) sd (s.threadsActive sd + 1) := by
  unfold iasRunKthreadOnCore iasCleanupCore at h
  rw [hcur] at h
  split at h
  · simp at h
  split at h
  · simp at h
  rw [Prod.mk.injEq] at h
  obtain ⟨rfl,-⟩ := h
  simp [hne]

end Step

/-! ### The measure -/

/-- The place of a number among all `int`s. -/
def rank (x : BitVec 32) : ℕ := (x + 0x80000000#32).toNat

theorem sle_iff_rank {x y : BitVec 32} : x.sle y = true ↔ rank x ≤ rank y := by
  rw [BitVec.sle_iff_toInt_le,rank,rank,BitVec.toNat_add,BitVec.toNat_add,
    BitVec.toInt_eq_toNat_cond,BitVec.toInt_eq_toNat_cond]
  have hx := x.isLt
  have hy := y.isLt
  simp only [BitVec.toNat_ofNat]
  split <;> split <;> omega

theorem rank_succ (x : BitVec 32) : rank (x+1) = rank x+1 ∨ rank (x+1) = 0 := by
  have hx := x.isLt
  have h : (x+1).toNat = (x.toNat+1) % 4294967296 := by simp
  simp only [rank,BitVec.toNat_add _ (0x80000000#32),h,BitVec.toNat_ofNat]
  omega

theorem rank_pred (x : BitVec 32) (h : 0 < rank x) : rank (x-1)+1 = rank x := by
  have hback := rank_succ (x-1)
  rw [BitVec.sub_add_cancel] at hback
  omega

/-- The greatest number has the least one as its successor, and then the sum of the squares goes
down all the more. -/
theorem rank_squares_lt {c d : BitVec 32} (h : c.sle (d+1) = false) :
    rank (c-1)^2 + rank (d+1)^2 < rank c^2 + rank d^2 := by
  rw [← Bool.not_eq_true,sle_iff_rank,Nat.not_le] at h
  have hc := rank_pred c (by omega)
  have hd := rank_succ d
  generalize rank (c-1) = e at hc ⊢
  generalize rank (d+1) = f at hd h ⊢
  rw [← hc] at h ⊢
  have hexp : ∀ n : ℕ, (n+1)^2 = n^2+2*n+1 := fun n => by ring
  rcases hd with rfl | rfl
  · rw [hexp,hexp]
    omega
  · rw [hexp]
    omega

/-! ### Runs -/

section Runs

variable {K ι : Type} [DecidableEq K] [DecidableEq ι] [Fintype K] [Fintype ι]
  {task : K → Task ι} {s t : State K ι} {sd cur : K} {core : ι} {env : Env}

/-- The number of idle cores. -/
def idle (s : State K ι) : ℕ := ∑ c, if s.cores c = none then 1 else 0

/-- The number of cores that best-effort processes hold. -/
def bestEffort (task : K → Task ι) (s : State K ι) : ℕ :=
  ∑ c, if (s.cores c).any (fun k => !(task k).isLc) then 1 else 0

def spread (task : K → Task ι) (s : State K ι) : ℕ := ∑ k, rank (burst task s k)^2

def weight (task : K → Task ι) (s : State K ι) : ℕ ×ₗ ℕ ×ₗ ℕ :=
  toLex (idle s,toLex (bestEffort task s,spread task s))

omit [Fintype K] in
theorem idle_run (h : iasRunKthreadOnCore env s sd core = (t,true)) :
    idle t + (if s.cores core = none then 1 else 0) = idle s := by
  rw [idle,run_cores h]
  exact sum_update (fun _ o => if o = none then 1 else 0) s.cores core (some sd)

omit [Fintype K] in
theorem bestEffort_run (task : K → Task ι) (h : iasRunKthreadOnCore env s sd core = (t,true)) :
    bestEffort task t + (if (s.cores core).any (fun k => !(task k).isLc) then 1 else 0) =
      bestEffort task s + (if !(task sd).isLc then 1 else 0) := by
  rw [bestEffort,run_cores h]
  exact sum_update (fun _ o => if o.any (fun k => !(task k).isLc) then 1 else 0) s.cores core
    (some sd)

omit [Fintype ι] in
theorem spread_run (task : K → Task ι) (h : iasRunKthreadOnCore env s sd core = (t,true))
    (hcur : s.cores core = some cur) (hne : sd ≠ cur) :
    spread task t + rank (burst task s cur)^2 + rank (burst task s sd)^2 =
      spread task s + rank (burst task s cur - 1)^2 + rank (burst task s sd + 1)^2 := by
  have hswap : ∀ a g : BitVec 32, a - 1 - g = a - g - 1 ∧ a + 1 - g = a - g + 1 := by
    intro a g
    constructor <;> ring
  have h₁ := sum_update (fun k a => rank (a - (task k).threadsGuaranteed)^2)
    (update s.threadsActive cur (s.threadsActive cur - 1)) sd (s.threadsActive sd + 1)
  have h₂ := sum_update (fun k a => rank (a - (task k).threadsGuaranteed)^2)
    s.threadsActive cur (s.threadsActive cur - 1)
  rw [update_of_ne hne,(hswap _ _).2] at h₁
  rw [(hswap _ _).1] at h₂
  unfold spread burst
  rw [run_active_free h hcur hne]
  omega

theorem weight_run (hpermit : iasCanPreemptCore task s sd core = true)
    (h : iasRunKthreadOnCore env s sd core = (t,true)) : weight task t < weight task s := by
  have hidle := idle_run h
  have hbest := bestEffort_run task h
  rw [weight,weight,Prod.Lex.toLex_lt_toLex,Prod.Lex.toLex_lt_toLex]
  dsimp only
  cases hcur : s.cores core with
  | none =>
    rw [hcur,if_pos rfl] at hidle
    exact Or.inl (by omega)
  | some cur =>
    rw [hcur,if_neg (by simp)] at hidle
    rw [hcur] at hbest
    obtain ⟨hne,-,⟨hbe,hlc⟩ | ⟨hsame,hsle⟩⟩ := (canPreempt_iff hcur).mp hpermit
    · refine Or.inr ⟨by omega,Or.inl ?_⟩
      simp [hbe,hlc] at hbest
      omega
    · have hspread := spread_run task h hcur hne
      have hlt := rank_squares_lt hsle
      refine Or.inr ⟨by omega,Or.inr ⟨?_,by omega⟩⟩
      simp [hsame] at hbest
      omega

omit [Fintype K] [Fintype ι] in
theorem not_back (hcur : s.cores core = some cur)
    (hpermit : iasCanPreemptCore task s sd core = true)
    (h : iasRunKthreadOnCore env s sd core = (t,true)) :
    iasCanPreemptCore task t cur core = false := by
  have hnow : t.cores core = some sd := by rw [run_cores h,update_self]
  rw [← Bool.not_eq_true,canPreempt_iff hnow]
  obtain ⟨hne,-,⟨hbe,hlc⟩ | ⟨hsame,hsle⟩⟩ := (canPreempt_iff hcur).mp hpermit
  · rintro ⟨-,-,⟨hsd,-⟩ | ⟨hsd,-⟩⟩
    · rw [hlc] at hsd
      contradiction
    · rw [hbe,hlc] at hsd
      contradiction
  · rintro ⟨-,-,⟨hsd,hcu⟩ | ⟨-,hback⟩⟩
    · rw [hsame,hsd] at hcu
      contradiction
    · have hactive := run_active_free h hcur hne
      have hsd : burst task t sd = burst task s sd + 1 := by
        rw [burst,burst,hactive,update_self]
        ring
      have hcu : burst task t cur + 1 = burst task s cur := by
        rw [burst,burst,hactive,update_of_ne (Ne.symm hne),update_self]
        ring
      rw [hsd,hcu,← Bool.not_eq_true,sle_iff_rank] at hback
      rw [← Bool.not_eq_true,sle_iff_rank] at hsle
      omega

theorem weight_call (hpermit : iasCanPreemptCore task s sd core = true) :
    weight task (iasRunKthreadOnCore env s sd core).1 ≤ weight task s ∧
      (weight task (iasRunKthreadOnCore env s sd core).1 = weight task s →
        (iasRunKthreadOnCore env s sd core).2 = false) := by
  cases hret : (iasRunKthreadOnCore env s sd core).2 with
  | false =>
    rw [run_failed hret]
    exact ⟨le_refl _,fun _ => rfl⟩
  | true =>
    have hlt := weight_run hpermit (Prod.ext rfl hret)
    exact ⟨hlt.le,fun heq => absurd heq hlt.ne⟩

theorem calls_settle {S : ℕ → State K ι} {env : ℕ → Env} {sd : ℕ → K} {core : ℕ → ι}
    (h : ∀ n, iasCanPreemptCore task (S n) (sd n) (core n) = true ∧
      (iasRunKthreadOnCore (env n) (S n) (sd n) (core n)).1 = S (n+1)) :
    ∃ N, ∀ n ≥ N, (iasRunKthreadOnCore (env n) (S n) (sd n) (core n)).2 = false := by
  have hanti : Antitone fun n => weight task (S n) := by
    apply antitone_nat_of_succ_le
    intro n
    rw [← (h n).2]
    exact (weight_call (h n).1).1
  obtain ⟨N,hN⟩ := WellFoundedLT.antitone_chain_condition hanti
  refine ⟨N,fun n hn => (weight_call (h n).1).2 ?_⟩
  rw [(h n).2]
  exact (hN (n+1) (by omega)).symm.trans (hN n hn)

/-- No sequence of permitted steps goes on for ever, failed calls in between do not help, and who
has lost a core to another process may not take it back from it. -/
theorem preemption_ends (task : K → Task ι) :
    (∀ S : ℕ → State K ι, ¬∀ n, ∃ env sd core,
      iasCanPreemptCore task (S n) sd core = true ∧
        iasRunKthreadOnCore env (S n) sd core = (S (n+1),true)) ∧
    (∀ (S : ℕ → State K ι) (env : ℕ → Env) (sd : ℕ → K) (core : ℕ → ι),
      (∀ n, iasCanPreemptCore task (S n) (sd n) (core n) = true ∧
        (iasRunKthreadOnCore (env n) (S n) (sd n) (core n)).1 = S (n+1)) →
      ∃ N, ∀ n ≥ N, (iasRunKthreadOnCore (env n) (S n) (sd n) (core n)).2 = false) ∧
    ∀ (s t : State K ι) env sd core cur, s.cores core = some cur →
      iasCanPreemptCore task s sd core = true → iasRunKthreadOnCore env s sd core = (t,true) →
      iasCanPreemptCore task t cur core = false := by
  refine ⟨fun S h => ?_,fun S env sd core => calls_settle,
    fun s t env sd core cur => not_back⟩
  choose env sd core hpermit hrun using h
  obtain ⟨N,hN⟩ := calls_settle fun n => ⟨hpermit n,congrArg Prod.fst (hrun n)⟩
  have := hN N (le_refl N)
  rw [hrun N] at this
  contradiction

end Runs

theorem preemption_ends_pair :
    let task : Fin 2 → Task (Fin 3) := fun _ => ⟨true,1,fun _ => false⟩
    let s : State (Fin 2) (Fin 3) :=
      ⟨fun _ => some 0,fun _ => 0,fun _ => false,fun k => if k = 0 then 3 else 0,fun _ _ => 0⟩
    iasCanPreemptCore task s 1 2 = true ∧
      iasCanPreemptCore task (iasRunKthreadOnCore ⟨0,1,true⟩ s 1 2).1 0 2 = false :=
  ⟨by decide,(preemption_ends _).2.2 _ _ ⟨0,1,true⟩ 1 2 0 rfl (by decide) rfl⟩

section Choice

variable {K ι R : Type} [DecidableEq K] [DecidableEq ι] [LinearOrder R]

omit [DecidableEq ι] in
/-- The loop from a best core so far: it ends with that one or with a better one that may be taken,
and none that may be taken is better. -/
theorem choose_spec (task : K → Task ι) (s : State K ι) (sd : K) (score : ι → R)
    (allowed : List ι) (best : R × Option ι)
    (hbest : ∀ core, best.2 = some core → score core = best.1) :
    let next := allowed.foldl (fun (best : R × Option ι) core =>
      if !iasCanPreemptCore task s sd core then best
      else if best.1 < score core then (score core,some core) else best) best
    (∀ core, next.2 = some core → score core = next.1) ∧ best.1 ≤ next.1 ∧
      (∀ c ∈ allowed, iasCanPreemptCore task s sd c = true → score c ≤ next.1) ∧
      (next = best ∨ best.1 < next.1 ∧
        ∃ core ∈ allowed, iasCanPreemptCore task s sd core = true ∧ next.2 = some core) := by
  induction allowed generalizing best with
  | nil => exact ⟨hbest,le_rfl,by simp,.inl rfl⟩
  | cons c cs ih =>
    simp only [List.foldl_cons]
    by_cases hc : iasCanPreemptCore task s sd c = true
    · by_cases hlt : best.1 < score c
      · obtain ⟨hscore,hle,hall,hnext⟩ := ih (score c,some c) (by simp)
        simp only [hc,hlt,Bool.not_true,Bool.false_eq_true,if_false,if_true]
        refine ⟨hscore,hlt.le.trans hle,List.forall_mem_cons.mpr ⟨fun _ => hle,hall⟩,.inr ?_⟩
        refine ⟨hlt.trans_le hle,?_⟩
        obtain heq | ⟨-,core,hmem,hcore⟩ := hnext
        · exact ⟨c,List.mem_cons_self,hc,by rw [heq]⟩
        · exact ⟨core,List.mem_cons_of_mem _ hmem,hcore⟩
      · obtain ⟨hscore,hle,hall,hnext⟩ := ih best hbest
        simp only [hc,hlt,Bool.not_true,Bool.false_eq_true,if_false]
        refine ⟨hscore,hle,List.forall_mem_cons.mpr ⟨fun _ => (not_lt.mp hlt).trans hle,hall⟩,?_⟩
        refine hnext.imp id (And.imp_right ?_)
        rintro ⟨core,hmem,hcore⟩
        exact ⟨core,List.mem_cons_of_mem _ hmem,hcore⟩
    · obtain ⟨hscore,hle,hall,hnext⟩ := ih best hbest
      simp only [hc,Bool.not_false,if_true]
      refine ⟨hscore,hle,List.forall_mem_cons.mpr ⟨fun h => absurd h hc,hall⟩,?_⟩
      refine hnext.imp id (And.imp_right ?_)
      rintro ⟨core,hmem,hcore⟩
      exact ⟨core,List.mem_cons_of_mem _ hmem,hcore⟩

omit [DecidableEq ι] in
/-- `ias_choose_core` returns an allowed core that the process may take and that no other such core
beats, and `NCPU` only if none has a score above the first one. -/
theorem chosen_best (task : K → Task ι) (s : State K ι) (lowest : R) (score : ι → R) (sd : K)
    (allowed : List ι) :
    (∀ core, iasChooseCore task s lowest score sd allowed = some core →
      core ∈ allowed ∧ iasCanPreemptCore task s sd core = true ∧ lowest < score core ∧
      ∀ c ∈ allowed, iasCanPreemptCore task s sd c = true → score c ≤ score core) ∧
    (iasChooseCore task s lowest score sd allowed = none ↔
      ∀ c ∈ allowed, iasCanPreemptCore task s sd c = true → score c ≤ lowest) := by
  obtain ⟨hscore,-,hall,hnext⟩ :=
    choose_spec task s sd score allowed (lowest,none) (by simp)
  refine ⟨fun core hcore => ?_,fun hnone c hmem hc => ?_,fun hno => ?_⟩
  · have hcore' := hscore core hcore
    obtain heq | ⟨hlt,core',hmem,hc,hsome⟩ := hnext
    · rw [iasChooseCore,heq] at hcore
      cases hcore
    · obtain rfl : core' = core := Option.some.inj (hsome.symm.trans hcore)
      exact ⟨hmem,hc,hcore' ▸ hlt,fun c hmem hc => hcore' ▸ hall c hmem hc⟩
  · obtain heq | ⟨-,core,-,-,hsome⟩ := hnext
    · have := hall c hmem hc
      rwa [heq] at this
    · rw [iasChooseCore,hsome] at hnone
      cases hnone
  · obtain heq | ⟨hlt,core,hmem,hc,hsome⟩ := hnext
    · rw [iasChooseCore,heq]
    · have := hno core hmem hc
      rw [hscore core hsome] at this
      exact absurd hlt (not_lt.mpr this)

end Choice


end Vessel.IasPreempt
