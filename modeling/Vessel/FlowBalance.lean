import Mathlib.Data.Int.CardIntervalMod
import Vessel.Flows
import Vessel.Sched

/-! Both places that distribute flow groups over active threads: `sched_steer_flows` of the
iokernel (`sched.c`) and `flows_update` of the runtime (`kthread.c`).  An active thread keeps the
group of its own number; the other groups are dealt out to the active threads in turn. -/
namespace Vessel

open List
namespace FlowBalance

variable {threads : ℕ} {active : List ℕ} {tbl : ℕ → ℕ}

/-- The groups of other threads that `tbl` gives to thread `a`. -/
def extra (threads : ℕ) (active : List ℕ) (tbl : ℕ → ℕ) (a : ℕ) : ℕ :=
  Nat.count (fun i => i ∉ active ∧ tbl i = a) threads

structure Distributed (threads : ℕ) (active : List ℕ) (tbl : ℕ → ℕ) : Prop where
  total : ∀ i < threads,tbl i ∈ active
  own : ∀ i ∈ active,tbl i = i
  balanced : ∀ a ∈ active,∀ b ∈ active,extra threads active tbl a ≤ extra threads active tbl b+1

/-- The groups dealt out before group `i`. -/
def deals (active : List ℕ) (i : ℕ) : ℕ := Nat.count (· ∉ active) i

theorem deals_succ (active : List ℕ) (i : ℕ) :
    deals active (i+1) = if i ∈ active then deals active i else deals active i+1 := by
  rw [deals,Nat.count_succ,← deals]
  by_cases h : i ∈ active <;> simp [h]

/-- What both loops compute. -/
structure DealtInTurn (threads : ℕ) (active : List ℕ) (tbl : ℕ → ℕ) : Prop where
  own : ∀ i ∈ active,tbl i = i
  dealt : ∀ i < threads,i ∉ active → tbl i = active.getD (deals active i%active.length) 0

theorem extra_eq_count (h : DealtInTurn threads active tbl) (hnodup : active.Nodup) {s : ℕ}
    (hs : s < active.length) : ∀ n ≤ threads,
    extra n active tbl active[s] = Nat.count (· ≡ s [MOD active.length]) (deals active n) := by
  intro n
  induction n with
  | zero => intro _; simp [extra,deals]
  | succ n ih =>
    intro hn
    have hprev := ih (by omega)
    rw [extra] at hprev ⊢
    rw [Nat.count_succ,hprev,deals_succ]
    by_cases hmem : n ∈ active
    · simp [hmem]
    · have hmod : deals active n%active.length < active.length := Nat.mod_lt _ (by omega)
      have hturn : tbl n = active[s] ↔ deals active n ≡ s [MOD active.length] := by
        rw [h.dealt n (by omega) hmem,getD_eq_getElem _ _ hmod,hnodup.getElem_inj_iff,Nat.ModEq,
          Nat.mod_eq_of_lt hs]
      simp [hmem,hturn,Nat.count_succ]

theorem DealtInTurn.distributed (h : DealtInTurn threads active tbl) (hnodup : active.Nodup)
    (hpos : 0 < active.length) : Distributed threads active tbl where
  total i hi := by
    by_cases hmem : i ∈ active
    · rw [h.own i hmem]
      exact hmem
    · have hmod : deals active i%active.length < active.length := Nat.mod_lt _ hpos
      rw [h.dealt i hi hmem,getD_eq_getElem _ _ hmod]
      exact getElem_mem hmod
  own := h.own
  balanced a ha b hb := by
    obtain ⟨s,hs,rfl⟩ := getElem_of_mem ha
    obtain ⟨r,hr,rfl⟩ := getElem_of_mem hb
    rw [extra_eq_count h hnodup hs threads le_rfl,extra_eq_count h hnodup hr threads le_rfl,
      Nat.count_modEq_card _ hpos,Nat.count_modEq_card _ hpos]
    split_ifs <;> omega

section Iokernel

variable {pr : Proc}

/-- The numbers of the threads in `active_threads`. -/
def activeList (pr : Proc) : List ℕ := (List.range pr.activeThreadCount).map pr.activeThreads

theorem activeList_getD {k : ℕ} (hk : k < pr.activeThreadCount) :
    (activeList pr).getD k 0 = pr.activeThreads k := by
  simp [activeList,hk]

theorem foldl_own (threadAt : ℕ → ℕ) (is : List ℕ) (tbl : ℕ → ℕ) (k : ℕ) :
    is.foldl (fun tbl i => Function.update tbl (threadAt i) (threadAt i)) tbl k =
      if k ∈ is.map threadAt then k else tbl k := by
  induction is generalizing tbl with
  | nil => rfl
  | cons i is ih =>
    rw [foldl_cons,ih]
    by_cases hk : k = threadAt i <;> simp [hk]

theorem ownFlows_apply (pr : Proc) (k : ℕ) :
    pr.ownFlows k = if k ∈ activeList pr then k else uintMax :=
  foldl_own pr.activeThreads _ _ k

/-- The second loop before its round `n`: `j` has counted the deals. -/
theorem foldl_others (hlt : ∀ i ∈ activeList pr,i < pr.threadCount)
    (hmax : pr.threadCount ≤ uintMax) : ∀ n,(List.range n).foldl (fun (acc : (ℕ → ℕ) × ℕ) i =>
      if acc.1 i ≠ uintMax then acc
      else (Function.update acc.1 i (pr.activeThreads (acc.2%pr.activeThreadCount)),acc.2+1))
      (pr.ownFlows,0) =
    (fun i => if i < n ∧ i ∉ activeList pr
      then pr.activeThreads (deals (activeList pr) i%pr.activeThreadCount) else pr.ownFlows i,
      deals (activeList pr) n) := by
  intro n
  induction n with
  | zero => simp [deals]
  | succ n ih =>
    rw [range_succ,foldl_append,ih,foldl_cons,foldl_nil,deals_succ]
    have hown := ownFlows_apply pr n
    by_cases hmem : n ∈ activeList pr
    · have hne : n ≠ uintMax := by have := hlt n hmem; omega
      simp only [hmem,not_true_eq_false,and_false,if_false,hown,if_true,ne_eq,hne,not_false_eq_true,
        Prod.mk.injEq,and_true]
      funext i
      by_cases hi : i = n
      · simp [hi,hmem]
      · simp [show i < n+1 ↔ i < n by omega]
    · simp only [lt_irrefl,false_and,if_false,hown,hmem,ne_eq,not_true_eq_false,Prod.mk.injEq,and_true]
      funext i
      by_cases hi : i = n
      · simp [hi,hmem]
      · simp [hi,show i < n+1 ↔ i < n by omega]

theorem schedSteerFlows_dealt (hpos : 0 < pr.activeThreadCount)
    (hlt : ∀ i ∈ activeList pr,i < pr.threadCount) (hmax : pr.threadCount ≤ uintMax) :
    DealtInTurn pr.threadCount (activeList pr) pr.schedSteerFlows.flowTbl := by
  have htbl : pr.schedSteerFlows.flowTbl = fun i =>
      if i < pr.threadCount ∧ i ∉ activeList pr
      then pr.activeThreads (deals (activeList pr) i%pr.activeThreadCount) else pr.ownFlows i := by
    rw [Proc.schedSteerFlows,if_neg (by omega),Proc.otherFlows,foldl_others hlt hmax]
  constructor
  · intro i hi
    simp [htbl,hi,ownFlows_apply]
  · intro i hi hmem
    have hmod : deals (activeList pr) i%pr.activeThreadCount < pr.activeThreadCount :=
      Nat.mod_lt _ hpos
    have hlen : (activeList pr).length = pr.activeThreadCount := by simp [activeList]
    simp only [htbl,hlen,activeList_getD hmod]
    exact if_pos ⟨hi,hmem⟩

end Iokernel

section Runtime

open Flows

/-- The position that is reset at the end of the list is the number of deals modulo its length. -/
theorem steerAway_concat {awakeks : List ℕ} (i : ℕ) : ∀ (is : List ℕ) (pos : ℕ) (tbl : ℕ → ℕ),
    pos < awakeks.length → steerAway awakeks pos (is++[i]) tbl =
      Function.update (steerAway awakeks pos is tbl) i
        (awakeks.getD ((pos+is.length)%awakeks.length) 0) := by
  intro is
  induction is with
  | nil =>
    intro pos tbl hpos
    simp [steerAway,Nat.mod_eq_of_lt hpos]
  | cons k is ih =>
    intro pos tbl hpos
    rw [cons_append,steerAway,ih _ _ (by split_ifs <;> omega),steerAway]
    congr 2
    split_ifs with hend
    · rw [length_cons,show pos+(is.length+1) = is.length+awakeks.length by omega,
        Nat.add_mod_right,Nat.zero_add]
    · rw [length_cons,Nat.add_right_comm,Nat.add_assoc]

theorem clearedBits_succ (b : Bitmap) (n : ℕ) :
    b.clearedBits (n+1) = if b n then b.clearedBits n else b.clearedBits n++[n] := by
  rw [Bitmap.clearedBits,range_succ,filter_append]
  by_cases hb : b n = true <;> simp [Bitmap.clearedBits,hb]

theorem steerAway_cleared {maxks : ℕ} {kawake : Bitmap} (hpos : 0 < (kawake.setBits maxks).length) :
    ∀ n ≤ maxks,(kawake.clearedBits n).length = deals (kawake.setBits maxks) n ∧
      ∀ i,steerAway (kawake.setBits maxks) 0 (kawake.clearedBits n) id i =
        if i < n ∧ i ∉ kawake.setBits maxks
        then (kawake.setBits maxks).getD (deals (kawake.setBits maxks) i%(kawake.setBits maxks).length) 0
        else i := by
  intro n
  induction n with
  | zero => intro _; simp [Bitmap.clearedBits,deals,steerAway]
  | succ n ih =>
    intro hn
    obtain ⟨hlen,htbl⟩ := ih (by omega)
    have hmem : n ∈ kawake.setBits maxks ↔ kawake n = true := by
      simp [Bitmap.mem_setBits,show n < maxks by omega]
    rw [clearedBits_succ,deals_succ]
    by_cases hb : kawake n = true
    · rw [if_pos hb,if_pos (hmem.mpr hb)]
      refine ⟨hlen,fun i => ?_⟩
      rw [htbl i]
      by_cases hi : i = n
      · simp [hi,hmem,hb]
      · simp [show i < n+1 ↔ i < n by omega]
    · rw [if_neg hb,if_neg (hmem.not.mpr hb)]
      refine ⟨by simp [hlen],fun i => ?_⟩
      rw [steerAway_concat n _ _ _ hpos,hlen,Nat.zero_add]
      by_cases hi : i = n
      · simp [hi,hmem,hb]
      · simp [hi,htbl i,show i < n+1 ↔ i < n by omega]

theorem fgMap_dealt {maxks : ℕ} {kawake : Bitmap} (hpos : 0 < (kawake.setBits maxks).length) :
    DealtInTurn maxks (kawake.setBits maxks) (fgMap maxks kawake) := by
  obtain ⟨-,htbl⟩ := steerAway_cleared hpos maxks le_rfl
  constructor
  · intro i hi
    rw [fgMap,htbl]
    simp [hi]
  · intro i hi hmem
    rw [fgMap,htbl]
    simp [hi,hmem]

end Runtime

/-- Both distributors, for any number of threads and any active ones among them. -/
theorem flow_groups_distributed :
    (∀ pr : Proc,pr.threadCount ≤ uintMax → 0 < pr.activeThreadCount → (activeList pr).Nodup →
      (∀ i ∈ activeList pr,i < pr.threadCount) →
      Distributed pr.threadCount (activeList pr) pr.schedSteerFlows.flowTbl) ∧
    ∀ (maxks : ℕ) (kawake : Bitmap),(∃ i < maxks,kawake i = true) →
      Distributed maxks (kawake.setBits maxks) (Flows.fgMap maxks kawake) := by
  constructor
  · intro pr hmax hpos hnodup hlt
    exact (schedSteerFlows_dealt hpos hlt hmax).distributed hnodup (by simpa [activeList] using hpos)
  · rintro maxks kawake ⟨i,hi,hb⟩
    have hpos : 0 < (kawake.setBits maxks).length :=
      length_pos_of_mem (Bitmap.mem_setBits.mpr ⟨hi,hb⟩)
    exact (fgMap_dealt hpos).distributed Bitmap.nodup_setBits hpos

/-- Threads 3 and 1 of five are active, in that order. -/
def twoOfFive : Proc :=
  ⟨1,false,5,2,fun i => ⟨i = 1 ∨ i = 3,0,i,0⟩,fun k => if k = 0 then 3 else 1,[0,2,4],fun _ => 0⟩

theorem flow_groups_distributed_five :
    (Distributed 5 [3,1] twoOfFive.schedSteerFlows.flowTbl ∧
      (List.range 5).map twoOfFive.schedSteerFlows.flowTbl = [3,1,1,3,3]) ∧
    Distributed 5 [1,3] (Flows.fgMap 5 fun i => i = 1 ∨ i = 3) :=
  ⟨⟨flow_groups_distributed.1 twoOfFive (by decide) (by decide) (by decide) (by decide),by decide⟩,
    flow_groups_distributed.2 5 (fun i => i = 1 ∨ i = 3) ⟨1,by decide,by decide⟩⟩

end FlowBalance
end Vessel
