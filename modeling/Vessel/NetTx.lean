import Mathlib.Data.List.Basic
import Mathlib.Data.List.Nodup
import Mathlib.Tactic.Common

/-! Sending packets on one kthread.  A packet that the driver refuses waits in the overflow queue
of the kthread, and each later call of `net_tx_raw` first tries to empty that queue. -/
namespace Vessel

open List
namespace NetTx

variable {α : Type}

/-- A call of `net_tx_raw` and what it meets: whether the driver takes the packet that is at the
head of the queue in the `n`-th round of the drain, whether a request to cede the core is seen
after that round, and whether the driver takes the new packet. -/
structure Call (α : Type) where
  packet : α
  takes : ℕ → Bool
  cede : ℕ → Bool
  takesNew : Bool

/-- The packets handed to the driver, in this order, and those in `txpktq_overflow`. -/
structure Kthread (α : Type) where
  handed : List α
  overflow : List α

/-- `net_tx_drain_overflow` from its `n`-th round on. -/
def netTxDrainOverflow (c : Call α) : ℕ → List α → List α → Kthread α
  | _,handed,[] => ⟨handed,[]⟩
  | n,handed,m::queue =>
    if c.takes n then
      if c.cede n then ⟨handed++[m],queue⟩ else netTxDrainOverflow c (n+1) (handed++[m]) queue
    else ⟨handed,m::queue⟩

def Kthread.drain (k : Kthread α) (c : Call α) : Kthread α :=
  if k.overflow.isEmpty then k else netTxDrainOverflow c 0 k.handed k.overflow

def netTxRaw (k : Kthread α) (c : Call α) : Kthread α :=
  let k := k.drain c
  if c.takesNew then { k with handed := k.handed++[c.packet] }
  else { k with overflow := k.overflow++[c.packet] }

/-- The calls of one kthread, in the order in which they are made. -/
def run (k : Kthread α) (cs : List (Call α)) : Kthread α := cs.foldl netTxRaw k

/-- The new packet does not pass one that is still queued when the drain ends. -/
def Kthread.Waits (k : Kthread α) (c : Call α) : Prop := c.takesNew = true → (k.drain c).overflow = []

/-- No packet passes another one in any of the calls. -/
def NoneOvertakes : Kthread α → List (Call α) → Prop
  | _,[] => True
  | k,c::cs => k.Waits c ∧ NoneOvertakes (netTxRaw k c) cs

/-- All packets that the kthread has got, those handed over first. -/
def Kthread.packets (k : Kthread α) : List α := k.handed++k.overflow

section Order

variable {k : Kthread α} {c : Call α} {cs : List (Call α)} {ps : List α}

theorem netTxDrainOverflow_packets (n : ℕ) (handed queue : List α) :
    (netTxDrainOverflow c n handed queue).packets = handed++queue := by
  induction queue generalizing n handed with
  | nil => rfl
  | cons m queue ih =>
    rw [netTxDrainOverflow]
    split_ifs
    · simp [Kthread.packets]
    · simp [ih]
    · rfl

theorem netTxDrainOverflow_suffix (n : ℕ) (handed queue : List α) :
    (netTxDrainOverflow c n handed queue).overflow <:+ queue := by
  induction queue generalizing n handed with
  | nil => exact suffix_rfl
  | cons m queue ih =>
    rw [netTxDrainOverflow]
    split_ifs
    · exact suffix_cons m queue
    · exact (ih _ _).trans (suffix_cons m queue)
    · exact suffix_rfl

@[simp] theorem drain_packets (k : Kthread α) (c : Call α) : (k.drain c).packets = k.packets := by
  unfold Kthread.drain
  split_ifs
  · rfl
  · exact netTxDrainOverflow_packets 0 k.handed k.overflow

theorem drain_suffix (k : Kthread α) (c : Call α) : (k.drain c).overflow <:+ k.overflow := by
  unfold Kthread.drain
  split_ifs
  · exact suffix_rfl
  · exact netTxDrainOverflow_suffix 0 k.handed k.overflow

theorem netTxRaw_packets (k : Kthread α) (c : Call α) : (netTxRaw k c).packets =
    if c.takesNew then (k.drain c).handed++c.packet::(k.drain c).overflow
    else k.packets++[c.packet] := by
  rw [← drain_packets k c]
  unfold netTxRaw
  split_ifs <;> simp [Kthread.packets]

theorem netTxRaw_perm (k : Kthread α) (c : Call α) :
    (netTxRaw k c).packets.Perm (k.packets++[c.packet]) := by
  rw [netTxRaw_packets]
  split_ifs
  · have hmid : ((k.drain c).handed++c.packet::(k.drain c).overflow).Perm _ := perm_middle
    have hdrain : (k.drain c).handed++(k.drain c).overflow = k.packets := drain_packets k c
    rw [hdrain] at hmid
    exact hmid.trans (perm_append_singleton _ _).symm
  · exact List.Perm.refl _

/-- A new packet that does not wait is in front of a queued one. -/
theorem netTxRaw_packets_iff (hnew : c.packet ∉ k.packets) :
    (netTxRaw k c).packets = k.packets++[c.packet] ↔ k.Waits c := by
  rw [netTxRaw_packets,Kthread.Waits]
  split_ifs with htakes
  · have hdrain : k.packets = (k.drain c).handed++(k.drain c).overflow := (drain_packets k c).symm
    simp only [htakes,forall_const]
    rw [hdrain,append_assoc,append_cancel_left_eq]
    constructor
    · intro heq
      cases hqueue : (k.drain c).overflow with
      | nil => rfl
      | cons m queue =>
        rw [hqueue,cons_append,List.cons.injEq] at heq
        rw [hdrain,hqueue] at hnew
        simp [heq.1] at hnew
    · intro hempty
      simp [hempty]
  · simp [htakes]

theorem netTxRaw_overflow_sublist (h : k.overflow.Sublist ps) (c : Call α) :
    (netTxRaw k c).overflow.Sublist (ps++[c.packet]) := by
  have hqueue := (drain_suffix k c).sublist.trans h
  unfold netTxRaw
  split_ifs
  · exact hqueue.trans (sublist_append_left _ _)
  · exact hqueue.append (List.Sublist.refl _)

theorem run_packets (hperm : k.packets.Perm ps) (hsub : k.overflow.Sublist ps) (cs : List (Call α)) :
    (run k cs).packets.Perm (ps++cs.map Call.packet) ∧
      (run k cs).overflow.Sublist (ps++cs.map Call.packet) := by
  induction cs generalizing k ps with
  | nil => simpa [run] using ⟨hperm,hsub⟩
  | cons c cs ih =>
    have hstep := (netTxRaw_perm k c).trans (hperm.append_right [c.packet])
    simpa [run] using ih hstep (netTxRaw_overflow_sublist hsub c)

theorem run_packets_iff [DecidableEq α] (hperm : k.packets.Perm ps)
    (hnodup : (ps++cs.map Call.packet).Nodup) :
    (run k cs).packets = ps++cs.map Call.packet ↔ k.packets = ps ∧ NoneOvertakes k cs := by
  induction cs generalizing k ps with
  | nil => simp [run,NoneOvertakes]
  | cons c cs ih =>
    have hsplit : ps++(c::cs).map Call.packet = (ps++[c.packet])++cs.map Call.packet := by simp
    rw [hsplit] at hnodup ⊢
    have hfresh : c.packet ∉ k.packets := by
      rw [hperm.mem_iff]
      exact fun hmem => disjoint_of_nodup_append hnodup.of_append_left hmem (by simp)
    have hstep := (netTxRaw_perm k c).trans (hperm.append_right [c.packet])
    change (run (netTxRaw k c) cs).packets = _ ↔ _
    rw [ih hstep hnodup,NoneOvertakes,← and_assoc]
    refine and_congr_left fun _ => ⟨fun heq => ?_,fun ⟨heq,hwaits⟩ => ?_⟩
    · -- without the new packet both lists are as they were before the call
      have herase : k.packets = ps := by
        have hps : c.packet ∉ ps := fun hmem => hfresh (hperm.mem_iff.mpr hmem)
        have hdrop := congrArg (List.erase · c.packet) heq
        rw [netTxRaw_packets] at hdrop
        split_ifs at hdrop
        · have hdrain : (k.drain c).handed++(k.drain c).overflow = k.packets := drain_packets k c
          have hhanded : c.packet ∉ (k.drain c).handed := fun hmem =>
            hfresh (hdrain ▸ mem_append_left _ hmem)
          simpa [erase_append_right _ hhanded,erase_append_right _ hps,hdrain] using hdrop
        · simpa [erase_append_right _ hfresh,erase_append_right _ hps] using hdrop
      exact ⟨herase,(netTxRaw_packets_iff hfresh).mp (herase ▸ heq)⟩
    · rw [(netTxRaw_packets_iff hfresh).mpr hwaits,heq]

end Order

/-- A kthread that has sent nothing. -/
def Kthread.init : Kthread α := ⟨[],[]⟩

/-- No packet is lost or handed over twice, and the queued packets are in the order of their
submission.  The packets are handed over in that order too, with the queued ones after them, just
if none overtakes another. -/
theorem handed_in_order_iff [DecidableEq α] (cs : List (Call α)) (hnodup : (cs.map Call.packet).Nodup) :
    (run .init cs).packets.Perm (cs.map Call.packet) ∧
    (run .init cs).overflow.Sublist (cs.map Call.packet) ∧
    ((run .init cs).handed++(run .init cs).overflow = cs.map Call.packet ↔
      NoneOvertakes .init cs) := by
  have hrun := run_packets (k:=.init) (List.Perm.refl ([] : List α)) (List.Sublist.refl []) cs
  refine ⟨hrun.1,hrun.2,?_⟩
  have hiff := run_packets_iff (k:=.init) (List.Perm.refl ([] : List α)) hnodup
  exact hiff.trans ⟨fun h => h.2,fun h => ⟨rfl,h⟩⟩

/-- The driver refuses the first two packets and takes all later ones. -/
def refusedTwice (cede : Bool) : List (Call ℕ) :=
  [⟨1,fun _ => false,fun _ => false,false⟩,⟨2,fun _ => false,fun _ => false,false⟩,
    ⟨3,fun _ => true,fun _ => cede,true⟩]

theorem handed_in_order_iff_undisturbed : (run .init (refusedTwice false)).handed = [1,2,3] ∧
    NoneOvertakes .init (refusedTwice false) :=
  ⟨by decide,(handed_in_order_iff (refusedTwice false) (by decide)).2.2.mp (by decide)⟩

/-- A request to cede the core ends the drain after the first packet, and the third one is handed
over before the second. -/
theorem handed_out_of_order : (refusedTwice true).map Call.packet = [1,2,3] ∧
    (run .init (refusedTwice true)).handed = [1,3] ∧
    (run .init (refusedTwice true)).overflow = [2] := by decide

end NetTx
end Vessel
